import GridEngine.HashTableKeys
import GridEngine.Machine
import Mathlib.Data.Set.Card

/-!
# Hash tables as finite maps

A table that is filled, emptied and searched call by call agrees with a finite map as long as no
call is made with a key that another key of the map passes for.
-/

namespace GridEngine
namespace HtableKeys

/-- A call on a table. -/
inductive Call (κ ν : Type*)
  | store (key : κ) (data : ν)
  | delete (key : κ)
  | lookup (key : κ)

section Calls
variable {κ ν : Type*}

def Call.key : Call κ ν → κ
  | .store key _ => key
  | .delete key => key
  | .lookup key => key

/-- The table after a call. -/
def step [KeyFuncs κ] (t : HtableRec κ ν) : Call κ ν → HtableRec κ ν
  | .store key data => sgeHtableStore t key data
  | .delete key => sgeHtableDelete t key
  | .lookup _ => t

def run [KeyFuncs κ] (size : ℕ) (calls : List (Call κ ν)) : HtableRec κ ν :=
  calls.foldl step (HtableRec.sgeHtableCreate size)

variable [DecidableEq κ]

/-- The finite map after a call. -/
def Call.update (m : κ → Option ν) : Call κ ν → κ → Option ν
  | .store key data => Function.update m key (some data)
  | .delete key => Function.update m key none
  | .lookup _ => m

/-- The data last stored under a key and not deleted since. -/
def stored (calls : List (Call κ ν)) : κ → Option ν := calls.foldl Call.update fun _ => none

/-- The keys of a finite map. -/
def live (m : κ → Option ν) : Set κ := {k | m k ≠ none}

/-- A call finds what the map holds and leaves one entry for each key. -/
def Agrees [KeyFuncs κ] (size : ℕ) (earlier : List (Call κ ν)) (call : Call κ ν) : Prop :=
  (∀ key, call = .lookup key → sgeHtableLookup (run size earlier) key = stored earlier key) ∧
    (run size (earlier ++ [call])).numentries = (live (stored (earlier ++ [call]))).ncard

/-- A table is a finite map along a sequence of calls. -/
def FiniteMap [KeyFuncs κ] (size : ℕ) (calls : List (Call κ ν)) : Prop :=
  ∀ earlier call, earlier ++ [call] <+: calls → Agrees size earlier call

end Calls

section Counts
variable {κ ν : Type*} [KeyFuncs κ] {key : κ} {data : ν} {t : HtableRec κ ν} {b : List (κ × ν)}

theorem storeInChain_eq_none : storeInChain key data b = none ↔ lookupInChain key b = none := by
  induction b with
  | nil => exact iff_of_true rfl rfl
  | cons e b ih =>
      rw [storeInChain, lookupInChain]
      split_ifs
      · exact Iff.rfl
      · rw [Option.map_eq_none_iff, ih]

theorem deleteFromChain_eq_none : deleteFromChain key b = none ↔ lookupInChain key b = none := by
  induction b with
  | nil => exact iff_of_true rfl rfl
  | cons e b ih =>
      rw [deleteFromChain, lookupInChain]
      split_ifs
      · exact Iff.rfl
      · rw [Option.map_eq_none_iff, ih]

theorem rehash_numentries (size : ℕ) : (t.rehash size).numentries = t.numentries := by
  suffices hfold : ∀ (l : List (κ × ν)) (t₀ : HtableRec κ ν),
      (l.foldl (fun t e => t.setBucket e.1 (e :: t.bucket e.1) t.numentries) t₀).numentries =
        t₀.numentries from hfold ..
  intro l
  induction l with
  | nil => exact fun t₀ => rfl
  | cons e l ih =>
      intro t₀
      rw [List.foldl_cons, ih]
      rfl

theorem resize_numentries (grow : Bool) :
    (t.sgeHtableResize grow).numentries = t.numentries := by
  rw [HtableRec.sgeHtableResize]
  split_ifs
  · exact rehash_numentries _
  · exact rehash_numentries _
  · rfl

theorem store_numentries : (sgeHtableStore t key data).numentries =
    if sgeHtableLookup t key = none then t.numentries + 1 else t.numentries := by
  rw [sgeHtableStore, sgeHtableLookup]
  cases hstore : storeInChain key data (t.bucket key) with
  | none =>
      rw [if_pos (storeInChain_eq_none.mp hstore)]
      dsimp only
      split_ifs
      · exact resize_numentries true
      · rfl
  | some b =>
      have hfound : lookupInChain key (t.bucket key) ≠ none := by
        rw [Ne, ← storeInChain_eq_none, hstore]
        exact Option.some_ne_none b
      rw [if_neg hfound]
      rfl

theorem delete_numentries : (sgeHtableDelete t key).numentries =
    if sgeHtableLookup t key = none then t.numentries else t.numentries - 1 := by
  rw [sgeHtableDelete, sgeHtableLookup]
  cases hdelete : deleteFromChain key (t.bucket key) with
  | none => rw [if_pos (deleteFromChain_eq_none.mp hdelete)]
  | some b =>
      have hfound : lookupInChain key (t.bucket key) ≠ none := by
        rw [Ne, ← deleteFromChain_eq_none, hdelete]
        exact Option.some_ne_none b
      rw [if_neg hfound]
      dsimp only
      split_ifs
      · exact resize_numentries false
      · rfl

end Counts

section Live
variable {κ ν : Type*}

theorem live_none : live (fun _ : κ => (none : Option ν)) = ∅ := by simp [live]

variable [DecidableEq κ] {m : κ → Option ν} {key : κ} {data : ν}

theorem live_store : live (Function.update m key (some data)) = insert key (live m) := by
  ext k
  by_cases hk : k = key
  · simp [live, hk]
  · simp [live, hk]

theorem live_delete : live (Function.update m key none) = live m \ {key} := by
  ext k
  by_cases hk : k = key
  · simp [live, hk]
  · simp [live, hk]

theorem ncard_store (hfinite : (live m).Finite) :
    (live (Function.update m key (some data))).ncard =
      if m key = none then (live m).ncard + 1 else (live m).ncard := by
  rw [live_store]
  split_ifs with hkey
  · exact Set.ncard_insert_of_notMem (fun hlive => hlive hkey) hfinite
  · rw [Set.insert_eq_of_mem hkey]

theorem ncard_delete :
    (live (Function.update m key none)).ncard =
      if m key = none then (live m).ncard else (live m).ncard - 1 := by
  rw [live_delete]
  split_ifs with hkey
  · rw [Set.sdiff_singleton_eq_self]
    exact fun hlive => hlive hkey
  · exact Set.ncard_sdiff_singleton_of_mem hkey

end Live

section Agreement
variable {κ ν : Type*} [KeyFuncs κ] {m : κ → Option ν} {t : HtableRec κ ν} {k key : κ} {data v : ν}

/-- No other key of the map passes for the key. -/
def Clear (m : κ → Option ν) (key : κ) : Prop :=
  ∀ k, m k ≠ none → KeyFuncs.compareFunc k key = 0 → k = key

variable [LawfulKeyFuncs κ]

theorem lookup_congr (hsame : KeyFuncs.compareFunc k key = 0) :
    sgeHtableLookup t k = sgeHtableLookup t key := by
  rw [lookup_classes, lookup_classes, keyClass_eq_iff.mpr hsame]

theorem lookup_store (ht : (classes t).Wf) : sgeHtableLookup (sgeHtableStore t key data) k =
    if KeyFuncs.compareFunc k key = 0 then some data else sgeHtableLookup t k := by
  have hlookup := Htable.lookup_store ⟨classes t, ht⟩ (keyClass key) (keyClass k) data
  simp only [keyClass_eq_iff] at hlookup
  rw [lookup_classes, store_classes, lookup_classes]
  exact hlookup

theorem lookup_delete (ht : (classes t).Wf) : sgeHtableLookup (sgeHtableDelete t key) k =
    if KeyFuncs.compareFunc k key = 0 then none else sgeHtableLookup t k := by
  have hlookup := Htable.lookup_delete ⟨classes t, ht⟩ (keyClass key) (keyClass k)
  simp only [keyClass_eq_iff] at hlookup
  rw [lookup_classes, delete_classes, lookup_classes]
  exact hlookup

/-- The table holds the map, and the compare function tells the keys of the map apart. -/
structure Holds (t : HtableRec κ ν) (m : κ → Option ν) : Prop where
  wf : (classes t).Wf
  found : ∀ k v, m k = some v → sgeHtableLookup t k = some v
  known : ∀ k v, sgeHtableLookup t k = some v → ∃ k', KeyFuncs.compareFunc k' k = 0 ∧ m k' = some v
  apart : ∀ k k', m k ≠ none → m k' ≠ none → KeyFuncs.compareFunc k k' = 0 → k = k'
  finite : (live m).Finite
  numentries : t.numentries = (live m).ncard

theorem Holds.clear_iff (h : Holds t m) :
    Clear m key ↔ (sgeHtableLookup t key = none ↔ m key = none) := by
  constructor
  · intro hclear
    refine ⟨fun hnone => ?_, fun hnone => ?_⟩
    · rw [Option.eq_none_iff_forall_ne_some]
      intro v hv
      rw [h.found key v hv] at hnone
      cases hnone
    · rw [Option.eq_none_iff_forall_ne_some]
      intro v hv
      obtain ⟨k, hsame, hk⟩ := h.known key v hv
      rw [hclear k (by rw [hk]; exact Option.some_ne_none v) hsame, hnone] at hk
      cases hk
  · intro hiff k hk hsame
    obtain ⟨v, hv⟩ := Option.ne_none_iff_exists'.mp hk
    have hkey : m key ≠ none := by
      rw [Ne, ← hiff, ← lookup_congr hsame, h.found k v hv]
      exact Option.some_ne_none v
    exact h.apart k key hk hkey hsame

theorem Holds.lookup_eq (h : Holds t m) (hclear : Clear m key) :
    sgeHtableLookup t key = m key := by
  cases hm : m key with
  | none => exact (h.clear_iff.mp hclear).mpr hm
  | some v => exact h.found key v hm

variable [DecidableEq κ]

theorem Holds.store (h : Holds t m) (hclear : Clear m key) :
    Holds (sgeHtableStore t key data) (Function.update m key (some data)) where
  wf := by
    rw [store_classes]
    exact (h.wf.store _ _).1
  found := by
    intro k v hv
    rw [lookup_store h.wf]
    by_cases hk : k = key
    · rw [hk, Function.update_self] at hv
      rw [hk, if_pos (LawfulKeyFuncs.equivalence.refl key), hv]
    · rw [Function.update_of_ne hk] at hv
      rw [if_neg, h.found k v hv]
      intro hsame
      exact hk (hclear k (by rw [hv]; exact Option.some_ne_none v) hsame)
  known := by
    intro k v hv
    rw [lookup_store h.wf] at hv
    split_ifs at hv with hsame
    · exact ⟨key, LawfulKeyFuncs.equivalence.symm hsame, by rw [Function.update_self, hv]⟩
    · obtain ⟨k', hk', hv'⟩ := h.known k v hv
      refine ⟨k', hk', ?_⟩
      rw [Function.update_of_ne, hv']
      rintro rfl
      exact hsame (LawfulKeyFuncs.equivalence.symm hk')
  apart := by
    intro k k' hk hk' hsame
    change k ∈ live _ at hk
    change k' ∈ live _ at hk'
    rw [live_store, Set.mem_insert_iff] at hk hk'
    rcases hk with rfl | hk
    · rcases hk' with rfl | hk'
      · rfl
      · exact (hclear k' hk' (LawfulKeyFuncs.equivalence.symm hsame)).symm
    · rcases hk' with rfl | hk'
      · exact hclear k hk hsame
      · exact h.apart k k' hk hk' hsame
  finite := by
    rw [live_store]
    exact h.finite.insert key
  numentries := by
    rw [store_numentries, ncard_store h.finite, h.numentries]
    exact if_congr (h.clear_iff.mp hclear) rfl rfl

theorem Holds.delete (h : Holds t m) (hclear : Clear m key) :
    Holds (sgeHtableDelete t key) (Function.update m key none) where
  wf := by
    rw [delete_classes]
    exact (h.wf.delete _).1
  found := by
    intro k v hv
    rw [lookup_delete h.wf]
    by_cases hk : k = key
    · rw [hk, Function.update_self] at hv
      cases hv
    · rw [Function.update_of_ne hk] at hv
      rw [if_neg, h.found k v hv]
      intro hsame
      exact hk (hclear k (by rw [hv]; exact Option.some_ne_none v) hsame)
  known := by
    intro k v hv
    rw [lookup_delete h.wf] at hv
    split_ifs at hv with hsame
    obtain ⟨k', hk', hv'⟩ := h.known k v hv
    refine ⟨k', hk', ?_⟩
    rw [Function.update_of_ne, hv']
    rintro rfl
    exact hsame (LawfulKeyFuncs.equivalence.symm hk')
  apart := by
    intro k k' hk hk' hsame
    change k ∈ live _ at hk
    change k' ∈ live _ at hk'
    rw [live_delete] at hk hk'
    exact h.apart k k' hk.1 hk'.1 hsame
  finite := by
    rw [live_delete]
    exact h.finite.sdiff
  numentries := by
    rw [delete_numentries, ncard_delete, h.numentries]
    exact if_congr (h.clear_iff.mp hclear) rfl rfl

theorem Holds.call {call : Call κ ν} (h : Holds t m) (hclear : Clear m call.key) :
    Holds (step t call) (call.update m) := by
  cases call with
  | store key data => exact h.store hclear
  | delete key => exact h.delete hclear
  | lookup key => exact h

end Agreement

section Runs
variable {κ ν : Type*} [KeyFuncs κ] [LawfulKeyFuncs κ] {m : κ → Option ν} {t : HtableRec κ ν}
  {size : ℕ}

theorem classes_create :
    classes (HtableRec.sgeHtableCreate size : HtableRec κ ν) = HtableRec.sgeHtableCreate size := by
  rw [HtableRec.sgeHtableCreate, classes, List.map_replicate, List.map_nil]
  rfl

theorem holds_create : Holds (HtableRec.sgeHtableCreate size : HtableRec κ ν) fun _ => none where
  wf := by
    rw [classes_create]
    exact HtableRec.wf_create size 0
  found := by
    intro k v hv
    cases hv
  known := by
    intro k v hv
    have hnone : (HtableRec.sgeHtableCreate size : HtableRec (KeyClass κ) ν).sgeHtableLookup
        (keyClass k) = none := Htable.lookup_create (keyClass k) size
    rw [lookup_classes, classes_create, hnone] at hv
    cases hv
  apart := fun k _ hk => absurd rfl hk
  finite := by
    rw [live_none]
    exact Set.finite_empty
  numentries := by
    rw [live_none, Set.ncard_empty]
    rfl

variable [DecidableEq κ]

/-- The map and the count agree after a call exactly when no other key passes for its key. -/
theorem Holds.call_iff (h : Holds t m) (call : Call κ ν) :
    ((∀ key, call = .lookup key → sgeHtableLookup t key = m key) ∧
      (step t call).numentries = (live (call.update m)).ncard) ↔ Clear m call.key := by
  constructor
  · rintro ⟨hlookup, hcount⟩
    rw [h.clear_iff]
    cases call with
    | store key data =>
        rw [step, Call.update, store_numentries, ncard_store h.finite, h.numentries] at hcount
        rw [Call.key]
        split_ifs at hcount with hfound hkey hkey
        · exact iff_of_true hfound hkey
        · omega
        · omega
        · exact iff_of_false hfound hkey
    | delete key =>
        rw [step, Call.update, delete_numentries, ncard_delete, h.numentries] at hcount
        rw [Call.key]
        have hpos : ∀ k, m k ≠ none → 0 < (live m).ncard := fun k hk =>
          Set.ncard_pos h.finite |>.mpr ⟨k, hk⟩
        split_ifs at hcount with hfound hkey hkey
        · exact iff_of_true hfound hkey
        · have := hpos key hkey
          omega
        · obtain ⟨v, hv⟩ := Option.ne_none_iff_exists'.mp hfound
          obtain ⟨k, -, hk⟩ := h.known key v hv
          have := hpos k (by rw [hk]; exact Option.some_ne_none v)
          omega
        · exact iff_of_false hfound hkey
    | lookup key => rw [Call.key, hlookup key rfl]
  · intro hclear
    refine ⟨fun key hcall => ?_, (h.call hclear).numentries⟩
    subst hcall
    exact h.lookup_eq hclear

/-- A table is a finite map exactly along the calls where no other key passes for a key. -/
theorem finiteMap_iff_clear (calls : List (Call κ ν)) : FiniteMap size calls ↔
    ∀ earlier call, earlier ++ [call] <+: calls → Clear (stored earlier) call.key := by
  suffices hrun : (FiniteMap size calls ↔
      ∀ earlier call, earlier ++ [call] <+: calls → Clear (stored earlier) call.key) ∧
      ((∀ earlier call, earlier ++ [call] <+: calls → Clear (stored earlier) call.key) →
        Holds (run size calls) (stored calls)) from hrun.1
  induction calls using List.reverseRecOn with
  | nil =>
      exact ⟨iff_of_true CallPrefixes.along_nil CallPrefixes.along_nil, fun _ => holds_create⟩
  | append_singleton calls call ih =>
      obtain ⟨hiff, hholds⟩ := ih
      rw [FiniteMap, CallPrefixes.along_concat, CallPrefixes.along_concat]
      have hrun : run size (calls ++ [call]) = step (run size calls) call := List.foldl_concat ..
      have hstored : stored (calls ++ [call]) = call.update (stored calls) :=
        List.foldl_concat ..
      refine ⟨?_, fun hclear => ?_⟩
      · change FiniteMap size calls ∧ _ ↔ _
        rw [hiff]
        refine and_congr_right fun hclear => ?_
        rw [Agrees, hrun, hstored]
        exact (hholds hclear).call_iff call
      · rw [hrun, hstored]
        exact (hholds hclear.1).call hclear.2

end Runs

end HtableKeys

end GridEngine
