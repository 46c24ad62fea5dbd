import Mathlib.Data.List.GetD
import Mathlib.Data.List.Nodup
import Mathlib.Algebra.Order.Ring.Int

/-!
# Hash tables

`sge_htable`: an array of `2 ^ size` buckets, each a list of entries. A table carries the fact that
every entry is in the bucket of its key and that no key occurs twice, so a look-up finds an entry
wherever storing, deleting and resizing have put it.
-/

namespace GridEngine

/-- The hash function of a table, which is chosen by the type of its keys. -/
class HashFunc (κ : Type*) where
  hashFunc : κ → ℤ

/-- The entries of an array of buckets with one bucket apart from the others. -/
theorem flatten_set_perm {α : Type*} (table : List (List α)) {i : ℕ} (hi : i < table.length) :
    table.flatten.Perm (table[i] ++ (table.eraseIdx i).flatten) ∧
      ∀ b, (table.set i b).flatten.Perm (b ++ (table.eraseIdx i).flatten) := by
  induction table generalizing i with
  | nil => simp at hi
  | cons b table ih =>
      cases i with
      | zero => exact ⟨.refl _, fun b => .refl _⟩
      | succ i =>
          obtain ⟨hget, hset⟩ := ih (Nat.lt_of_succ_lt_succ hi)
          refine ⟨?_, fun b' => ?_⟩
          · rw [List.flatten_cons, List.getElem_cons_succ, List.eraseIdx_cons_succ,
              List.flatten_cons]
            exact (hget.append_left b).trans (List.perm_append_comm_assoc _ _ _)
          · rw [List.set_cons_succ, List.flatten_cons, List.eraseIdx_cons_succ, List.flatten_cons]
            exact ((hset b').append_left b).trans (List.perm_append_comm_assoc _ _ _)

section Buckets
variable {κ ν : Type*} [DecidableEq κ] {b rest : List (κ × ν)} {key k : κ} {data v : ν}

/-- The loop of `sge_htable_store` over one bucket. -/
def storeInBucket (key : κ) (data : ν) : List (κ × ν) → Option (List (κ × ν))
  | [] => none
  | (k, d) :: rest =>
      if k = key then some ((k, data) :: rest)
      else (storeInBucket key data rest).map ((k, d) :: ·)

/-- The loop of `sge_htable_delete` over one bucket. -/
def deleteFromBucket (key : κ) : List (κ × ν) → Option (List (κ × ν))
  | [] => none
  | (k, d) :: rest =>
      if k = key then some rest else (deleteFromBucket key rest).map ((k, d) :: ·)

theorem storeInBucket_eq_none (b : List (κ × ν)) (h : storeInBucket key data b = none) :
    key ∉ b.map Prod.fst := by
  induction b with
  | nil => simp
  | cons e b ih =>
      obtain ⟨k, d⟩ := e
      rw [storeInBucket] at h
      split_ifs at h with hk
      rw [List.map_cons, List.mem_cons, not_or]
      exact ⟨Ne.symm hk, ih (Option.map_eq_none_iff.mp h)⟩

theorem storeInBucket_eq_some (b : List (κ × ν)) {b' : List (κ × ν)}
    (h : storeInBucket key data b = some b') :
    ∃ d l r, b = l ++ (key, d) :: r ∧ b' = l ++ (key, data) :: r := by
  induction b generalizing b' with
  | nil => cases h
  | cons e b ih =>
      obtain ⟨k, d⟩ := e
      rw [storeInBucket] at h
      split_ifs at h with hk
      · cases h
        exact ⟨d, [], b, by rw [hk]; rfl, by rw [hk]; rfl⟩
      · obtain ⟨b', hb', rfl⟩ := Option.map_eq_some_iff.mp h
        obtain ⟨d', l, r, rfl, rfl⟩ := ih hb'
        exact ⟨d', (k, d) :: l, r, rfl, rfl⟩

theorem deleteFromBucket_eq_none (b : List (κ × ν)) (h : deleteFromBucket key b = none) :
    key ∉ b.map Prod.fst := by
  induction b with
  | nil => simp
  | cons e b ih =>
      obtain ⟨k, d⟩ := e
      rw [deleteFromBucket] at h
      split_ifs at h with hk
      rw [List.map_cons, List.mem_cons, not_or]
      exact ⟨Ne.symm hk, ih (Option.map_eq_none_iff.mp h)⟩

theorem deleteFromBucket_eq_some (b : List (κ × ν)) {b' : List (κ × ν)}
    (h : deleteFromBucket key b = some b') :
    ∃ d l r, b = l ++ (key, d) :: r ∧ b' = l ++ r := by
  induction b generalizing b' with
  | nil => cases h
  | cons e b ih =>
      obtain ⟨k, d⟩ := e
      rw [deleteFromBucket] at h
      split_ifs at h with hk
      · cases h
        exact ⟨d, [], b, by rw [hk]; rfl, rfl⟩
      · obtain ⟨b', hb', rfl⟩ := Option.map_eq_some_iff.mp h
        obtain ⟨d', l, r, rfl, rfl⟩ := ih hb'
        exact ⟨d', (k, d) :: l, r, rfl, rfl⟩

theorem lookup_iff_mem (h : (b.map Prod.fst).Nodup) : b.lookup k = some v ↔ (k, v) ∈ b := by
  induction b with
  | nil => simp
  | cons e b ih =>
      obtain ⟨k', v'⟩ := e
      rw [List.map_cons, List.nodup_cons] at h
      rw [List.lookup_cons, List.mem_cons]
      by_cases hk : k = k'
      · subst hk
        simp only [beq_self_eq_true]
        constructor
        · intro hv
          cases hv
          exact Or.inl rfl
        · rintro (heq | hmem)
          · cases heq
            rfl
          · exact absurd (List.mem_map_of_mem hmem) h.1
      · rw [beq_eq_false_iff_ne.mpr hk, ih h.2]
        constructor
        · exact Or.inr
        · rintro (heq | hmem)
          · cases heq
            exact absurd rfl hk
          · exact hmem

end Buckets

/-- `htable_rec`. -/
structure HtableRec (κ ν : Type*) where
  table : List (List (κ × ν))
  size : ℕ
  numentries : ℕ

namespace HtableRec
variable {κ ν : Type*} [HashFunc κ]

/-- `hash_func(key) & mask`. -/
def index (size : ℕ) (key : κ) : ℕ := (HashFunc.hashFunc key % 2 ^ size).toNat

/-- Every entry is in the bucket of its key, and every key occurs once. -/
structure Wf (t : HtableRec κ ν) : Prop where
  length : t.table.length = 2 ^ t.size
  placed : ∀ i (hi : i < t.table.length), ∀ e ∈ t.table[i], index t.size e.1 = i
  distinct : (t.table.flatten.map Prod.fst).Nodup

/-- The bucket of a key. -/
def bucket (t : HtableRec κ ν) (key : κ) : List (κ × ν) := t.table.getD (index t.size key) []

def setBucket (t : HtableRec κ ν) (key : κ) (b : List (κ × ν)) (numentries : ℕ) :
    HtableRec κ ν :=
  ⟨t.table.set (index t.size key) b, t.size, numentries⟩

def sgeHtableCreate (size : ℕ) : HtableRec κ ν := ⟨List.replicate (2 ^ size) [], size, 0⟩

/-- The loop of `sge_htable_resize` puts every entry at the head of its new bucket. -/
def rehash (t : HtableRec κ ν) (size : ℕ) : HtableRec κ ν :=
  t.table.flatten.foldl (fun t e => t.setBucket e.1 (e :: t.bucket e.1) t.numentries)
    ⟨List.replicate (2 ^ size) [], size, t.numentries⟩

def sgeHtableResize (t : HtableRec κ ν) (grow : Bool) : HtableRec κ ν :=
  if grow then t.rehash (t.size + 1)
  else if t.size > 2 then t.rehash (t.size - 1)
  else t

section Operations
variable [DecidableEq κ]

def sgeHtableStore (t : HtableRec κ ν) (key : κ) (data : ν) : HtableRec κ ν :=
  match storeInBucket key data (t.bucket key) with
  | some b => t.setBucket key b t.numentries
  | none =>
      let t := t.setBucket key ((key, data) :: t.bucket key) (t.numentries + 1)
      if t.numentries > 2 ^ t.size - 1 then t.sgeHtableResize true else t

def sgeHtableLookup (t : HtableRec κ ν) (key : κ) : Option ν := (t.bucket key).lookup key

def sgeHtableDelete (t : HtableRec κ ν) (key : κ) : HtableRec κ ν :=
  match deleteFromBucket key (t.bucket key) with
  | some b =>
      let t := t.setBucket key b (t.numentries - 1)
      if t.numentries < (2 ^ t.size - 1) / 2 then t.sgeHtableResize false else t
  | none => t

end Operations

variable {t : HtableRec κ ν} {key : κ} {data v : ν} {b : List (κ × ν)} {numentries : ℕ}

theorem index_lt (size : ℕ) (key : κ) : index size key < 2 ^ size := by
  have hpos : (0 : ℤ) < 2 ^ size := pow_pos (by decide) size
  have hnonneg := Int.emod_nonneg (HashFunc.hashFunc key) hpos.ne'
  have hlt := Int.emod_lt_of_pos (HashFunc.hashFunc key) hpos
  rw [index, Int.toNat_lt hnonneg]
  exact_mod_cast hlt

/-- The entries outside the bucket of a key. -/
def others (t : HtableRec κ ν) (key : κ) : List (κ × ν) :=
  (t.table.eraseIdx (index t.size key)).flatten

theorem Wf.bucket_eq (h : t.Wf) (key : κ) : ∃ hi : index t.size key < t.table.length,
    t.bucket key = t.table[index t.size key] := by
  have hi := index_lt t.size key
  rw [← h.length] at hi
  exact ⟨hi, List.getD_eq_getElem _ _ hi⟩

theorem Wf.entries_perm (h : t.Wf) (key : κ) :
    t.table.flatten.Perm (t.bucket key ++ t.others key) := by
  obtain ⟨hi, hbucket⟩ := h.bucket_eq key
  rw [hbucket]
  exact (flatten_set_perm t.table hi).1

theorem Wf.setBucket_perm (h : t.Wf) (key : κ) (b : List (κ × ν)) (numentries : ℕ) :
    (t.setBucket key b numentries).table.flatten.Perm (b ++ t.others key) := by
  obtain ⟨hi, -⟩ := h.bucket_eq key
  exact (flatten_set_perm t.table hi).2 b

theorem Wf.bucket_placed (h : t.Wf) {e : κ × ν} (he : e ∈ t.bucket key) :
    index t.size e.1 = index t.size key := by
  obtain ⟨hi, hbucket⟩ := h.bucket_eq key
  rw [hbucket] at he
  exact h.placed _ hi e he

theorem Wf.mem_bucket (h : t.Wf) {e : κ × ν} : e ∈ t.bucket e.1 ↔ e ∈ t.table.flatten := by
  obtain ⟨hi, hbucket⟩ := h.bucket_eq e.1
  rw [hbucket, List.mem_flatten]
  constructor
  · exact fun he => ⟨_, List.getElem_mem hi, he⟩
  · rintro ⟨b, hb, he⟩
    obtain ⟨i, hi', rfl⟩ := List.mem_iff_getElem.mp hb
    have hindex := h.placed i hi' e he
    simpa only [hindex] using he

/-- A bucket may be exchanged for one with distinct keys of the same index. -/
theorem Wf.setBucket (h : t.Wf) (hplaced : ∀ e ∈ b, index t.size e.1 = index t.size key)
    (hdistinct : ((b ++ t.others key).map Prod.fst).Nodup) :
    (t.setBucket key b numentries).Wf := by
  refine ⟨by rw [HtableRec.setBucket, List.length_set, h.length], fun i hi e he => ?_, ?_⟩
  · simp only [HtableRec.setBucket, List.getElem_set] at he
    split_ifs at he with heq
    · rw [← heq]
      exact hplaced e he
    · exact h.placed i _ e he
  · exact ((h.setBucket_perm key b numentries).map Prod.fst).nodup_iff.mpr hdistinct

theorem wf_create (size : ℕ) (numentries : ℕ) :
    (⟨List.replicate (2 ^ size) [], size, numentries⟩ : HtableRec κ ν).Wf := by
  refine ⟨List.length_replicate, fun i hi e he => ?_, ?_⟩
  · rw [List.getElem_replicate] at he
    exact absurd he List.not_mem_nil
  · simp

theorem Wf.push (h : t.Wf) {e : κ × ν} (hnew : e.1 ∉ t.table.flatten.map Prod.fst) :
    (t.setBucket e.1 (e :: t.bucket e.1) numentries).Wf ∧
      (t.setBucket e.1 (e :: t.bucket e.1) numentries).table.flatten.Perm
        (e :: t.table.flatten) := by
  have hperm : (e :: t.bucket e.1 ++ t.others e.1).Perm (e :: t.table.flatten) := by
    rw [List.cons_append]
    exact (h.entries_perm e.1).symm.cons e
  refine ⟨h.setBucket (fun e' he' => ?_) ?_, (h.setBucket_perm _ _ _).trans hperm⟩
  · rcases List.mem_cons.mp he' with rfl | he'
    · rfl
    · exact h.bucket_placed he'
  · rw [(hperm.map Prod.fst).nodup_iff]
    exact List.nodup_cons.mpr ⟨hnew, h.distinct⟩

theorem Wf.rehash (h : t.Wf) (size : ℕ) :
    (t.rehash size).Wf ∧ (t.rehash size).table.flatten.Perm t.table.flatten := by
  suffices hfold : ∀ l : List (κ × ν), ∀ t₀ : HtableRec κ ν, t₀.Wf →
      ((l ++ t₀.table.flatten).map Prod.fst).Nodup →
      (l.foldl (fun t e => t.setBucket e.1 (e :: t.bucket e.1) t.numentries) t₀).Wf ∧
        (l.foldl (fun t e => t.setBucket e.1 (e :: t.bucket e.1) t.numentries)
          t₀).table.flatten.Perm (l ++ t₀.table.flatten) by
    have hempty : (List.replicate (2 ^ size) ([] : List (κ × ν))).flatten = [] := by simp
    have hresult := hfold t.table.flatten _ (wf_create size t.numentries)
      (by rw [hempty, List.append_nil]; exact h.distinct)
    rw [hempty, List.append_nil] at hresult
    exact hresult
  intro l
  induction l with
  | nil => exact fun t₀ h₀ _ => ⟨h₀, .refl _⟩
  | cons e l ih =>
      intro t₀ h₀ hnodup
      have hswap : (l ++ e :: t₀.table.flatten).Perm (e :: l ++ t₀.table.flatten) :=
        List.perm_middle
      have hnew : e.1 ∉ t₀.table.flatten.map Prod.fst := by
        rw [List.cons_append, List.map_cons, List.nodup_cons, List.map_append,
          List.mem_append, not_or] at hnodup
        exact hnodup.1.2
      obtain ⟨hwf, hperm⟩ := @Wf.push _ _ _ t₀ t₀.numentries h₀ e hnew
      have hmid := (hperm.append_left l).trans hswap
      obtain ⟨hwf', hperm'⟩ := ih _ hwf ((hmid.map Prod.fst).nodup_iff.mpr hnodup)
      exact ⟨hwf', hperm'.trans hmid⟩

theorem Wf.resize (h : t.Wf) (grow : Bool) :
    (t.sgeHtableResize grow).Wf ∧
      (t.sgeHtableResize grow).table.flatten.Perm t.table.flatten := by
  rw [sgeHtableResize]
  split_ifs
  · exact h.rehash _
  · exact h.rehash _
  · exact ⟨h, .refl _⟩

theorem Wf.notMem_of_bucket (h : t.Wf) (hkey : key ∉ (t.bucket key).map Prod.fst) :
    key ∉ t.table.flatten.map Prod.fst := by
  intro hmem
  obtain ⟨e, he, rfl⟩ := List.mem_map.mp hmem
  exact hkey (List.mem_map_of_mem (h.mem_bucket.mpr he))

section Operations
variable [DecidableEq κ]

theorem Wf.lookup_iff (h : t.Wf) :
    t.sgeHtableLookup key = some v ↔ (key, v) ∈ t.table.flatten := by
  rw [sgeHtableLookup, lookup_iff_mem, ← h.mem_bucket]
  obtain ⟨hi, hbucket⟩ := h.bucket_eq key
  rw [hbucket]
  exact h.distinct.sublist ((List.sublist_flatten_of_mem (List.getElem_mem hi)).map _)

theorem Wf.store (h : t.Wf) (key : κ) (data : ν) :
    (t.sgeHtableStore key data).Wf ∧ ∀ e, e ∈ (t.sgeHtableStore key data).table.flatten ↔
      e = (key, data) ∨ (e ∈ t.table.flatten ∧ e.1 ≠ key) := by
  rw [sgeHtableStore]
  cases hstore : storeInBucket key data (t.bucket key) with
  | none =>
      have hnew := h.notMem_of_bucket (storeInBucket_eq_none _ hstore)
      obtain ⟨hwf, hperm⟩ := @Wf.push _ _ _ t (t.numentries + 1) h (key, data) hnew
      have hmem : ∀ e, e ∈ (key, data) :: t.table.flatten ↔
          e = (key, data) ∨ (e ∈ t.table.flatten ∧ e.1 ≠ key) := by
        intro e
        rw [List.mem_cons]
        refine or_congr_right (iff_self_and.mpr fun he heq => hnew ?_)
        exact heq ▸ List.mem_map_of_mem he
      simp only
      split_ifs
      · obtain ⟨hwf', hperm'⟩ := hwf.resize true
        exact ⟨hwf', fun e => (hperm'.trans hperm).mem_iff.trans (hmem e)⟩
      · exact ⟨hwf, fun e => hperm.mem_iff.trans (hmem e)⟩
  | some b =>
      obtain ⟨d, l, r, hbucket, rfl⟩ := storeInBucket_eq_some _ hstore
      have hentries := h.entries_perm key
      rw [hbucket, List.append_assoc, List.cons_append] at hentries
      have hsame : (l ++ (key, d) :: (r ++ t.others key)).map Prod.fst =
          (l ++ (key, data) :: (r ++ t.others key)).map Prod.fst := by simp
      have hdistinct := (hentries.map Prod.fst).nodup_iff.mp h.distinct
      have hkey : key ∉ (l ++ (r ++ t.others key)).map Prod.fst := by
        rw [List.map_append, List.map_cons, List.nodup_middle, List.nodup_cons,
          ← List.map_append] at hdistinct
        exact hdistinct.1
      refine ⟨h.setBucket (fun e he => ?_) ?_, fun e => ?_⟩
      · have hplaced : ∀ e ∈ l ++ (key, d) :: r, index t.size e.1 = index t.size key :=
          fun e he => h.bucket_placed (hbucket ▸ he)
        rw [List.mem_append, List.mem_cons] at he
        rcases he with he | rfl | he
        · exact hplaced e (List.mem_append_left _ he)
        · rfl
        · exact hplaced e (List.mem_append_right _ (List.mem_cons_of_mem _ he))
      · rw [List.append_assoc, List.cons_append, ← hsame]
        exact hdistinct
      · rw [(h.setBucket_perm _ _ _).mem_iff, hentries.mem_iff, List.append_assoc,
          List.cons_append, List.perm_middle.mem_iff, List.perm_middle.mem_iff, List.mem_cons,
          List.mem_cons]
        refine or_congr_right ⟨fun he => ⟨Or.inr he, fun heq => hkey ?_⟩, ?_⟩
        · exact List.mem_map.mpr ⟨e, he, heq⟩
        · rintro ⟨rfl | he, hne⟩
          · exact absurd rfl hne
          · exact he

theorem Wf.delete (h : t.Wf) (key : κ) :
    (t.sgeHtableDelete key).Wf ∧ ∀ e, e ∈ (t.sgeHtableDelete key).table.flatten ↔
      e ∈ t.table.flatten ∧ e.1 ≠ key := by
  rw [sgeHtableDelete]
  cases hdelete : deleteFromBucket key (t.bucket key) with
  | none =>
      have hnew := h.notMem_of_bucket (deleteFromBucket_eq_none _ hdelete)
      refine ⟨h, fun e => iff_self_and.mpr fun he heq => hnew ?_⟩
      exact heq ▸ List.mem_map_of_mem he
  | some b =>
      obtain ⟨d, l, r, hbucket, rfl⟩ := deleteFromBucket_eq_some _ hdelete
      have hentries := h.entries_perm key
      rw [hbucket, List.append_assoc, List.cons_append] at hentries
      have hdistinct := (hentries.map Prod.fst).nodup_iff.mp h.distinct
      rw [List.map_append, List.map_cons, List.nodup_middle, List.nodup_cons,
        ← List.map_append] at hdistinct
      have hwf : (t.setBucket key (l ++ r) (t.numentries - 1)).Wf := by
        refine h.setBucket (fun e he => ?_) ?_
        · refine h.bucket_placed ?_
          rw [hbucket, List.mem_append, List.mem_cons]
          exact (List.mem_append.mp he).imp id Or.inr
        · rw [List.append_assoc]
          exact hdistinct.2
      have hmem : ∀ e, e ∈ l ++ r ++ t.others key ↔ e ∈ t.table.flatten ∧ e.1 ≠ key := by
        intro e
        rw [hentries.mem_iff, List.append_assoc, List.perm_middle.mem_iff, List.mem_cons]
        constructor
        · exact fun he => ⟨Or.inr he, fun heq => hdistinct.1 (List.mem_map.mpr ⟨e, he, heq⟩)⟩
        · rintro ⟨rfl | he, hne⟩
          · exact absurd rfl hne
          · exact he
      have hperm := h.setBucket_perm key (l ++ r) (t.numentries - 1)
      simp only
      split_ifs
      · obtain ⟨hwf', hperm'⟩ := hwf.resize false
        exact ⟨hwf', fun e => (hperm'.trans hperm).mem_iff.trans (hmem e)⟩
      · exact ⟨hwf, fun e => hperm.mem_iff.trans (hmem e)⟩

end Operations

end HtableRec

/-- `htable`. -/
def Htable (κ ν : Type*) [HashFunc κ] := {t : HtableRec κ ν // t.Wf}

namespace Htable
variable {κ ν : Type*} [HashFunc κ]

def sgeHtableCreate (size : ℕ) : Htable κ ν :=
  ⟨HtableRec.sgeHtableCreate size, HtableRec.wf_create size 0⟩

variable [DecidableEq κ]

def sgeHtableStore (t : Htable κ ν) (key : κ) (data : ν) : Htable κ ν :=
  ⟨t.1.sgeHtableStore key data, (t.2.store key data).1⟩

def sgeHtableLookup (t : Htable κ ν) (key : κ) : Option ν := t.1.sgeHtableLookup key

def sgeHtableDelete (t : Htable κ ν) (key : κ) : Htable κ ν :=
  ⟨t.1.sgeHtableDelete key, (t.2.delete key).1⟩

variable (t : Htable κ ν) (key k : κ) (data : ν)

@[simp] theorem lookup_create (size : ℕ) :
    (sgeHtableCreate size : Htable κ ν).sgeHtableLookup k = none := by
  rw [Option.eq_none_iff_forall_ne_some]
  intro v hv
  have hmem := (HtableRec.wf_create size 0).lookup_iff.mp hv
  simp at hmem

theorem lookup_store : (t.sgeHtableStore key data).sgeHtableLookup k =
    if k = key then some data else t.sgeHtableLookup k := by
  ext v
  rw [sgeHtableLookup, (t.sgeHtableStore key data).2.lookup_iff, sgeHtableStore,
    (t.2.store key data).2]
  split_ifs with hk
  · simp [hk, eq_comm]
  · rw [sgeHtableLookup, t.2.lookup_iff]
    simp [hk]

theorem lookup_delete : (t.sgeHtableDelete key).sgeHtableLookup k =
    if k = key then none else t.sgeHtableLookup k := by
  ext v
  rw [sgeHtableLookup, (t.sgeHtableDelete key).2.lookup_iff, sgeHtableDelete,
    (t.2.delete key).2]
  split_ifs with hk
  · simp [hk]
  · rw [sgeHtableLookup, t.2.lookup_iff]
    simp [hk]

end Htable

end GridEngine
