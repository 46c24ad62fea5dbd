import GridEngine.CStrings
import GridEngine.EnvironmentValues
import GridEngine.LeftmostParts

/-!
# Replacing a search string

`sge_replace_substring` counts the occurrences of the search string, allocates memory for as many
replacements and then replaces the leftmost occurrences. The count has the overlapping occurrences
too. With a shorter replacement each of them makes the memory smaller than the text.
-/

namespace GridEngine.ReplaceSubstring
open CStrings EnvironmentValues Occurrences

/-- A `malloc` that has memory for every object. -/
structure Allocator where
  malloc : ℕ → Option (List UInt8)
  /-- no bytes may be `NULL` or memory that cannot be written to -/
  malloc_zero : malloc 0 = none ∨ malloc 0 = some []
  malloc_object : ∀ size, 0 < size → size < 2 ^ 63 →
    ∃ mem, malloc size = some mem ∧ mem.length = size
  malloc_large : ∀ size, 2 ^ 63 ≤ size → malloc size = none

/-- A number as a `size_t`. -/
def sizeT (n : ℤ) : ℕ := (n % 2 ^ 64).toNat

/-- A number as an `int`. -/
def int (n : ℤ) : ℤ := n.bmod (2 ^ 32)

/-- The loop that counts; a count that is no `int` has no result. -/
def countLoop (input old : List UInt8) : ℕ → ℕ → ℕ → Option ℕ
  | 0, _, _ => none
  | fuel + 1, source, toReplace =>
      let tail : ℤ := input.length - 1
      if source ≤ tail then
        let currentTail : ℤ := source + old.length - 1
        if currentTail > tail then some toReplace
        else if (input.drop source).take old.length = old then
          if toReplace + 1 < 2 ^ 31 then countLoop input old fuel (source + 1) (toReplace + 1)
          else none
        else countLoop input old fuel (source + 1) toReplace
      else some toReplace

/-- `change` and `new_len`. -/
def newLen (input old new : List UInt8) (toReplace : ℕ) : ℤ :=
  let change := int (sizeT (toReplace * sizeT ((new.length : ℤ) - old.length)))
  int (sizeT (sizeT (input.length + sizeT change) + 1))

/-- The loop that copies to the index `newString` of the memory. -/
def copyLoop (input old new : List UInt8) : ℕ → ℕ → ℕ → List UInt8 → Option (List UInt8)
  | 0, _, _, _ => none
  | fuel + 1, source, newString, mem =>
      let tail : ℤ := input.length - 1
      if source ≤ tail then
        let currentTail : ℤ := source + old.length - 1
        if currentTail ≤ tail ∧ (input.drop source).take old.length = old then do
          let mem ← write mem newString new
          copyLoop input old new fuel (source + old.length) (newString + new.length) mem
        else do
          let c ← input[source]?
          let mem ← write mem newString [c]
          copyLoop input old new fuel (source + 1) (newString + 1) mem
      else some mem

/-- `sge_replace_substring`: `NULL` or the new memory. There is no result when a byte is written
outside of the memory. -/
def sgeReplaceSubstring (heap : Allocator) :
    Option (List UInt8) → Option (List UInt8) → Option (List UInt8) →
      Option (Option (List UInt8))
  | some input, some old, some new => do
      let toReplace ← countLoop input old (input.length + 1) 0 0
      if toReplace = 0 then some none
      else
        let size := sizeT (newLen input old new toReplace)
        match heap.malloc size with
        | none => some none
        | some newString =>
            let newString ← write newString 0 (List.replicate size 0)
            (copyLoop input old new (input.length + 1) 0 0 newString).map some
  | _, _, _ => some none

section Purpose

/-- The leftmost occurrences are replaced, in memory of the caller's own, and there is `NULL` when
there are none. -/
def ReplacesLeftmost (input old new : List UInt8) (result : Option (Option (List UInt8))) : Prop :=
  ∃ returned, result = some returned ∧ (returned = none ↔ ∀ i, ¬ OccursAt old input i) ∧
    ∀ mem, returned = some mem →
      ∃ parts, LeftmostParts old input parts ∧ contents mem = some (new.intercalate parts)

/-- The size of the text with a replacement for each occurrence, and a terminator. -/
def plannedSize (input old new : List UInt8) : ℤ :=
  input.length + number old input * ((new.length : ℤ) - old.length) + 1

/-- A planned size that is an `int` has room for the text unless a shorter replacement meets
overlapping occurrences. Any other size is wrapped. -/
def HasRoom (input old new : List UInt8) : Prop :=
  number old input < 2 ^ 31 ∧
    if -2 ^ 31 ≤ plannedSize input old new ∧ plannedSize input old new < 2 ^ 31 then
      old.length ≤ new.length ∨ Spaced old input
    else
      ∃ parts, LeftmostParts old input parts ∧
        (new.intercalate parts).length < int (plannedSize input old new)

end Purpose

section Sizes
variable {input old new : List UInt8} {toReplace : ℕ}

theorem sizeT_modEq (n : ℤ) : (sizeT n : ℤ) ≡ n [ZMOD 2 ^ 32] := by
  unfold sizeT Int.ModEq
  omega

theorem int_modEq (n : ℤ) : int n ≡ n [ZMOD 2 ^ 32] := Int.bmod_emod

theorem int_congr {m n : ℤ} (h : m ≡ n [ZMOD 2 ^ 32]) : int m = int n := by
  unfold Int.ModEq at h
  unfold int
  rw [Int.bmod_def, Int.bmod_def]
  norm_cast at h ⊢
  rw [h]

/-- The products and sums wrap around, but only the result of the whole counts. -/
theorem newLen_eq : newLen input old new toReplace =
    int (input.length + toReplace * ((new.length : ℤ) - old.length) + 1) := by
  have hchange : int (sizeT (toReplace * sizeT ((new.length : ℤ) - old.length))) ≡
      toReplace * ((new.length : ℤ) - old.length) [ZMOD 2 ^ 32] :=
    (int_modEq _).trans ((sizeT_modEq _).trans ((sizeT_modEq _).mul_left _))
  have hsum := (((sizeT_modEq _).trans hchange).add_left (input.length : ℤ))
  exact int_congr ((sizeT_modEq _).trans (((sizeT_modEq _).trans hsum).add_right 1))

theorem int_range (n : ℤ) : -2 ^ 31 ≤ int n ∧ int n < 2 ^ 31 := by
  unfold int
  rw [Int.bmod_def]
  split_ifs <;> omega

theorem int_eq {n : ℤ} (hlow : -2 ^ 31 ≤ n) (hhigh : n < 2 ^ 31) : int n = n := by
  unfold int
  rw [Int.bmod_def]
  split_ifs <;> omega

/-- A negative size is larger than any object. -/
theorem sizeT_int (n : ℤ) :
    0 ≤ int n ∧ (sizeT (int n) : ℤ) = int n ∨ int n < 0 ∧ 2 ^ 63 ≤ sizeT (int n) := by
  have hrange := int_range n
  unfold sizeT
  omega

end Sizes

section Places
variable {input old new s : List UInt8} {source : ℕ}

theorem toReplace_eq (old s : List UInt8) : toReplace old s = number old s := by
  induction s with
  | nil => rfl
  | cons b s ih =>
      rw [toReplace, number_cons, ih]
      simp only [List.isPrefixOf_iff_prefix]

theorem replaceFrom_of_prefix (hold : old ≠ []) (h : old <+: s) :
    replaceFrom old new s = new ++ replaceFrom old new (s.drop old.length) := by
  cases s with
  | nil => exact absurd (List.prefix_nil.mp h) hold
  | cons b s =>
      have hpos := List.length_pos_iff.mpr hold
      have hdrop : (b :: s).drop old.length = s.drop (old.length - 1) := by
        rw [← Nat.sub_add_cancel hpos, List.drop_succ_cons, Nat.add_sub_cancel]
      rw [replaceFrom, if_pos (List.isPrefixOf_iff_prefix.mpr h), hdrop]

theorem replaceFrom_cons {b : UInt8} (h : ¬ old <+: b :: s) :
    replaceFrom old new (b :: s) = b :: replaceFrom old new s := by
  rw [replaceFrom, if_neg (fun hprefix => h (List.isPrefixOf_iff_prefix.mp hprefix))]

theorem replaceFrom_parts (hold : old ≠ []) (new s : List UInt8) :
    ∃ parts, LeftmostParts old s parts ∧ replaceFrom old new s = new.intercalate parts := by
  induction s using replaceFrom.induct old with
  | case1 =>
      refine ⟨[[]], .last fun i hi => ?_, by rw [replaceFrom, List.intercalate_singleton]⟩
      rw [OccursAt, List.drop_nil] at hi
      exact hold (List.prefix_nil.mp hi)
  | case2 b s hprefix ih =>
      obtain ⟨parts, hparts, heq⟩ := ih
      have hprefix' := List.isPrefixOf_iff_prefix.mp hprefix
      obtain ⟨rest, hrest⟩ := hprefix'
      have hdrop : s.drop (old.length - 1) = rest := by
        have hpos := List.length_pos_iff.mpr hold
        rw [← List.drop_succ_cons, Nat.sub_add_cancel hpos, ← hrest, List.drop_left]
      rw [hdrop] at hparts heq
      refine ⟨[] :: parts, ?_, ?_⟩
      · have hfirst : LeftmostParts old ([] ++ old ++ rest) ([] :: parts) :=
          .cons (fun i hi => absurd hi (Nat.not_lt_zero i)) hparts
        rwa [← hrest]
      · rw [replaceFrom, if_pos hprefix, hdrop, heq,
          List.intercalate_cons_of_ne_nil hparts.ne_nil, List.nil_append]
  | case3 b s hnot ih =>
      obtain ⟨parts, hparts, heq⟩ := ih
      rw [List.isPrefixOf_iff_prefix] at hnot
      cases parts with
      | nil => exact absurd rfl hparts.ne_nil
      | cons part parts =>
          exact ⟨(b :: part) :: parts, hparts.prepend hnot,
            by rw [replaceFrom_cons hnot, heq, List.intercalate_cons_cons_left]⟩

theorem mem_replaceFrom {c : UInt8} (h : c ∈ replaceFrom old new s) : c ∈ new ∨ c ∈ s := by
  induction s using replaceFrom.induct old with
  | case1 =>
      rw [replaceFrom] at h
      exact absurd h List.not_mem_nil
  | case2 b s hprefix ih =>
      rw [replaceFrom, if_pos hprefix, List.mem_append] at h
      rcases h with h | h
      · exact Or.inl h
      · exact (ih h).imp_right fun hmem => List.mem_cons_of_mem _ (List.mem_of_mem_drop hmem)
  | case3 b s hnot ih =>
      rw [replaceFrom, if_neg hnot, List.mem_cons] at h
      rcases h with rfl | h
      · exact Or.inr List.mem_cons_self
      · exact (ih h).imp_right (List.mem_cons_of_mem _)

end Places

section Loops
variable {input old new mem : List UInt8} {fuel source newString n : ℕ}

theorem same_iff :
    (input.drop source).take old.length = old ↔ old <+: input.drop source := by
  rw [List.prefix_iff_eq_take]
  exact eq_comm

/-- The loop that counts goes over all places, and what it leaves out is too short. -/
theorem countLoop_eq (hsource : source ≤ input.length) (hfuel : input.length < source + fuel)
    (hn : n < 2 ^ 31) : countLoop input old fuel source n =
      if n + number old (input.drop source) < 2 ^ 31 then
        some (n + number old (input.drop source)) else none := by
  induction fuel generalizing source n with
  | zero => omega
  | succ fuel ih =>
      rw [countLoop]
      simp only [same_iff]
      by_cases hend : source < input.length
      · rw [if_pos (by omega)]
        by_cases hbreak : source + old.length ≤ input.length
        · rw [if_neg (by omega)]
          have hnumber := number_cons old input[source] (input.drop (source + 1))
          rw [← List.drop_eq_getElem_cons hend] at hnumber
          by_cases hsame : old <+: input.drop source
          · rw [if_pos hsame] at hnumber
            rw [if_pos hsame, hnumber, ← Nat.add_assoc]
            by_cases hint : n + 1 < 2 ^ 31
            · rw [if_pos hint, ih (by omega) (by omega) hint]
            · rw [if_neg hint, if_neg (by omega)]
          · rw [if_neg hsame, Nat.zero_add] at hnumber
            rw [if_neg hsame, hnumber, ih (by omega) (by omega) hn]
        · have hshort : number old (input.drop source) = 0 :=
            number_eq_zero (by rw [List.length_drop]; omega)
          rw [if_pos (by omega), hshort, Nat.add_zero, if_pos hn]
      · rw [if_neg (by omega), List.drop_eq_nil_of_le (by omega)]
        exact (if_pos hn).symm

theorem write_then (bytes more : List UInt8) {next : List UInt8 → Option (List UInt8)}
    (hnext : ∀ mem', newString + bytes.length ≤ mem'.length →
      next mem' = write mem' (newString + bytes.length) more) :
    (write mem newString bytes).bind next = write mem newString (bytes ++ more) := by
  rw [← write_append]
  apply Option.bind_congr
  intro mem' hwrite
  refine hnext mem' ?_
  by_contra hlt
  rw [write_length hwrite] at hlt
  rw [write_eq_none (by omega)] at hwrite
  cases hwrite

/-- The loop that copies writes the text with the replacements, or fails like one write of it. -/
theorem copyLoop_eq (hold : old ≠ []) (hsource : source ≤ input.length)
    (hfuel : input.length < source + fuel) (hin : newString ≤ mem.length) :
    copyLoop input old new fuel source newString mem =
      write mem newString (replaceFrom old new (input.drop source)) := by
  have hpos := List.length_pos_iff.mpr hold
  induction fuel generalizing source newString mem with
  | zero => omega
  | succ fuel ih =>
      rw [copyLoop]
      simp only [same_iff]
      by_cases hend : source < input.length
      · rw [if_pos (by omega)]
        by_cases hprefix : old <+: input.drop source
        · have hle := hprefix.length_le
          rw [List.length_drop] at hle
          rw [if_pos ⟨by omega, hprefix⟩, replaceFrom_of_prefix hold hprefix, List.drop_drop]
          refine write_then new _ fun mem' hmem' => ?_
          exact ih (by omega) (by omega) hmem'
        · rw [if_neg (fun h => hprefix h.2), List.getElem?_eq_getElem hend,
            List.drop_eq_getElem_cons hend, replaceFrom_cons]
          · refine write_then [input[source]] _ fun mem' hmem' => ?_
            exact ih (by omega) (by omega) hmem'
          · rwa [← List.drop_eq_getElem_cons hend]
      · rw [if_neg (by omega), List.drop_eq_nil_of_le (by omega), replaceFrom, write_nil hin]

end Loops

section Room
variable {input old new text : List UInt8} {n : ℕ}

/-- The whole text is in cleared memory exactly if a terminator is left behind it. -/
theorem cleared_iff (htext : 0 ∉ text) :
    (∃ mem, write (List.replicate n 0) 0 text = some mem ∧ contents mem = some text) ↔
      text.length < n := by
  constructor
  · rintro ⟨mem, hwrite, hcontents⟩
    by_contra hle
    by_cases hfull : text.length = n
    · rw [write_eq (by rw [List.length_replicate]; omega), List.take_zero, List.nil_append,
        List.drop_eq_nil_of_le (by rw [List.length_replicate]; omega), List.append_nil] at hwrite
      obtain rfl := Option.some.inj hwrite
      rw [contents, if_neg htext] at hcontents
      cases hcontents
    · rw [write_eq_none (by rw [List.length_replicate]; omega)] at hwrite
      cases hwrite
  · intro hlt
    refine ⟨_, write_eq (by rw [List.length_replicate]; omega), ?_⟩
    apply Holds.contents_eq
    refine ⟨htext, List.replicate (n - text.length - 1) 0, ?_⟩
    rw [List.take_zero, List.nil_append, List.drop_replicate, ← List.replicate_succ]
    congr 2
    omega

theorem write_replicate (mem : List UInt8) :
    write mem 0 (List.replicate mem.length 0) = some (List.replicate mem.length 0) := by
  rw [write_eq (by rw [List.length_replicate, Nat.zero_add]), List.take_zero, List.nil_append,
    List.drop_eq_nil_of_le (by rw [List.length_replicate, Nat.zero_add]), List.append_nil]

theorem Allocator.length_eq (heap : Allocator) {size : ℕ} {mem : List UInt8}
    (h : heap.malloc size = some mem) : mem.length = size := by
  rcases Nat.eq_zero_or_pos size with rfl | hpos
  · rcases heap.malloc_zero with hnone | hnil
    · rw [hnone] at h
      cases h
    · rw [hnil] at h
      rw [← Option.some.inj h, List.length_nil]
  · by_cases hlarge : 2 ^ 63 ≤ size
    · rw [heap.malloc_large size hlarge] at h
      cases h
    · obtain ⟨mem', hmem', hlength⟩ := heap.malloc_object size hpos (by omega)
      rw [hmem'] at h
      rwa [← Option.some.inj h]

theorem sgeReplaceSubstring_eq (heap : Allocator) (hold : old ≠ []) :
    sgeReplaceSubstring heap (some input) (some old) (some new) =
      if number old input < 2 ^ 31 then
        if number old input = 0 then some none
        else
          match heap.malloc (sizeT (int (plannedSize input old new))) with
          | none => some none
          | some mem =>
              (write (List.replicate mem.length 0) 0 (replaceFrom old new input)).map some
      else none := by
  have hcount : countLoop input old (input.length + 1) 0 0 = _ :=
    countLoop_eq (Nat.zero_le _) (by omega) (by norm_num)
  rw [List.drop_zero, Nat.zero_add] at hcount
  rw [sgeReplaceSubstring, hcount]
  by_cases hint : number old input < 2 ^ 31
  · simp only [if_pos hint, Option.bind_eq_bind, Option.bind_some]
    rw [newLen_eq, ← plannedSize]
    split_ifs with hnumber
    · rfl
    · cases hmalloc : heap.malloc (sizeT (int (plannedSize input old new))) with
      | none => rfl
      | some mem =>
          simp only
          rw [← heap.length_eq hmalloc, write_replicate, Option.bind_some,
            copyLoop_eq hold (Nat.zero_le _) (by omega) (Nat.zero_le _), List.drop_zero]
  · simp only [if_neg hint, Option.bind_eq_bind, Option.bind_none]

end Room

section Replaces
variable {input old new : List UInt8}

/-- With memory from `malloc` the text is there exactly if the size is larger than its length. -/
theorem allocated_iff (heap : Allocator) {text : List UInt8} {n : ℤ} (htext : 0 ∉ text) :
    (∃ mem mem', heap.malloc (sizeT (int n)) = some mem ∧
      write (List.replicate mem.length 0) 0 text = some mem' ∧ contents mem' = some text) ↔
      text.length < int n := by
  have hrange := int_range n
  rcases sizeT_int n with ⟨hnonneg, hsize⟩ | ⟨hneg, hsize⟩
  · constructor
    · rintro ⟨mem, mem', hmalloc, hwritten⟩
      have hlt := (cleared_iff htext).mp ⟨mem', hwritten⟩
      rw [heap.length_eq hmalloc] at hlt
      omega
    · intro hlt
      obtain ⟨mem, hmalloc, hlength⟩ :=
        heap.malloc_object (sizeT (int n)) (by omega) (by omega)
      obtain ⟨mem', hwritten⟩ := (cleared_iff (n := mem.length) htext).mpr (by omega)
      exact ⟨mem, mem', hmalloc, hwritten⟩
  · constructor
    · rintro ⟨mem, mem', hmalloc, -⟩
      rw [heap.malloc_large _ hsize] at hmalloc
      cases hmalloc
    · intro hlt
      omega

theorem hasRoom_iff (hold : old ≠ []) : HasRoom input old new ↔
    number old input < 2 ^ 31 ∧
      (replaceFrom old new input).length < int (plannedSize input old new) := by
  obtain ⟨parts, hparts, htext⟩ := replaceFrom_parts hold new input
  rw [HasRoom, htext]
  apply and_congr_right
  intro _
  split_ifs with hrange
  · rw [int_eq hrange.1 hrange.2, ← hparts.length_intercalate_le_iff hold, plannedSize,
      Int.lt_add_one_iff]
  · constructor
    · rintro ⟨parts', hparts', hlt⟩
      rwa [hparts.unique hparts']
    · exact fun hlt => ⟨parts, hparts, hlt⟩

/-- `NULL` for a string without the search string. -/
theorem replaces_absent (heap : Allocator) (hold : old ≠ [])
    (habsent : ∀ i, ¬ OccursAt old input i) :
    ReplacesLeftmost input old new
      (sgeReplaceSubstring heap (some input) (some old) (some new)) := by
  have hnone := (number_eq_zero_iff hold).mpr habsent
  refine ⟨none, ?_, ⟨fun _ => habsent, fun _ => rfl⟩, fun mem hmem => nomatch hmem⟩
  rw [sgeReplaceSubstring_eq heap hold, if_pos (by omega), if_pos hnone]

theorem replaces_present_iff (heap : Allocator) (hold : old ≠ []) (hinput : 0 ∉ input)
    (hnew : 0 ∉ new) (hpresent : ¬ ∀ i, ¬ OccursAt old input i) :
    ReplacesLeftmost input old new
        (sgeReplaceSubstring heap (some input) (some old) (some new)) ↔
      HasRoom input old new := by
  obtain ⟨parts, hparts, heq⟩ := replaceFrom_parts hold new input
  have hnul : 0 ∉ replaceFrom old new input := fun h => (mem_replaceFrom h).elim hnew hinput
  have hnumber : number old input ≠ 0 := fun h => hpresent ((number_eq_zero_iff hold).mp h)
  rw [hasRoom_iff hold, ← allocated_iff heap hnul, sgeReplaceSubstring_eq heap hold,
    if_neg hnumber]
  constructor
  · rintro ⟨returned, hreturned, hnull, htext⟩
    split_ifs at hreturned with hint
    refine ⟨hint, ?_⟩
    cases hmalloc : heap.malloc (sizeT (int (plannedSize input old new))) with
    | none =>
        rw [hmalloc] at hreturned
        exact absurd (hnull.mp (Option.some.inj hreturned).symm) hpresent
    | some mem =>
        rw [hmalloc] at hreturned
        obtain ⟨mem', hwrite, rfl⟩ := Option.map_eq_some_iff.mp hreturned
        obtain ⟨parts', hparts', hcontents⟩ := htext mem' rfl
        rw [← hparts.unique hparts', ← heq] at hcontents
        exact ⟨mem, mem', rfl, hwrite, hcontents⟩
  · rintro ⟨hint, mem, mem', hmalloc, hwrite, hcontents⟩
    rw [if_pos hint, hmalloc]
    simp only [hwrite, Option.map_some]
    refine ⟨some mem', rfl, ?_, ?_⟩
    · exact ⟨fun h => absurd h (Option.some_ne_none _), fun h => absurd h hpresent⟩
    · rintro _ ⟨⟩
      exact ⟨parts, hparts, by rw [hcontents, heq]⟩

/-- Where the memory is large enough the string is the one of the copy without memory. -/
theorem sgeReplaceSubstring_refines (heap : Allocator) (hold : old ≠ []) (hinput : 0 ∉ input)
    (hnew : 0 ∉ new) (hroom : HasRoom input old new) :
    ∃ returned, sgeReplaceSubstring heap (some input) (some old) (some new) = some returned ∧
      returned.map contents = (EnvironmentValues.sgeReplaceSubstring input old new).map some := by
  rw [EnvironmentValues.sgeReplaceSubstring, toReplace_eq]
  by_cases habsent : ∀ i, ¬ OccursAt old input i
  · have hnone := (number_eq_zero_iff hold).mpr habsent
    refine ⟨none, ?_, by rw [if_pos hnone, Option.map_none, Option.map_none]⟩
    rw [sgeReplaceSubstring_eq heap hold, if_pos (by omega), if_pos hnone]
  · obtain ⟨returned, hreturned, hnull, htext⟩ :=
      (replaces_present_iff heap hold hinput hnew habsent).mpr hroom
    refine ⟨returned, hreturned, ?_⟩
    rw [if_neg fun h => habsent ((number_eq_zero_iff hold).mp h)]
    cases returned with
    | none => exact absurd (hnull.mp rfl) habsent
    | some mem =>
        obtain ⟨parts, hparts, hcontents⟩ := htext mem rfl
        obtain ⟨parts', hparts', heq⟩ := replaceFrom_parts hold new input
        rw [Option.map_some, Option.map_some, hcontents, heq, hparts.unique hparts']

/-- The calls of `var_list_dump_to_file` have the room, since occurrences of one byte do not
overlap. -/
theorem sgeReplaceSubstring_byte (heap : Allocator) {b : UInt8} (hinput : 0 ∉ input)
    (hnew : 0 ∉ new) (htwo : new.length = 2) (hsize : 2 * input.length + 1 < 2 ^ 31) :
    ∃ returned, sgeReplaceSubstring heap (some input) (some [b]) (some new) = some returned ∧
      returned.map contents = (EnvironmentValues.sgeReplaceSubstring input [b] new).map some := by
  have hle := number_le [b] input
  refine sgeReplaceSubstring_refines heap (List.cons_ne_nil b []) hinput hnew ⟨by omega, ?_⟩
  have hplanned : plannedSize input [b] new = input.length + number [b] input + 1 := by
    rw [plannedSize, htwo, List.length_singleton]
    ring
  rw [hplanned, if_pos (by omega)]
  exact Or.inr spaced_singleton

/-- `sge_replace_substring` replaces the leftmost occurrences within its memory exactly if there is
none, or there is room for the replacements. -/
theorem sgeReplaceSubstring_replaces_iff (heap : Allocator)
    (input old new : EnvironmentValues.CString) (hold : old.bytes ≠ []) :
    ReplacesLeftmost input.bytes old.bytes new.bytes
        (sgeReplaceSubstring heap (some input.bytes) (some old.bytes) (some new.bytes)) ↔
      (∀ i, ¬ OccursAt old.bytes input.bytes i) ∨ HasRoom input.bytes old.bytes new.bytes := by
  by_cases habsent : ∀ i, ¬ OccursAt old.bytes input.bytes i
  · exact iff_of_true (replaces_absent heap hold habsent) (Or.inl habsent)
  · rw [replaces_present_iff heap hold input.no_nul new.no_nul habsent]
    exact ⟨Or.inr, fun h => h.resolve_left habsent⟩

/-- Memory that is cleared already. -/
def clearedHeap : Allocator where
  malloc size := if size < 2 ^ 63 then some (List.replicate size 0) else none
  malloc_zero := Or.inr rfl
  malloc_object _ _ hlt := ⟨_, if_pos hlt, List.length_replicate⟩
  malloc_large _ hle := if_neg (Nat.not_lt.mpr hle)

/-- The one byte of "a" replaced by two. -/
theorem sgeReplaceSubstring_replaces_letter :
    ReplacesLeftmost [98, 97] [97] [99, 99]
        (sgeReplaceSubstring clearedHeap (some [98, 97]) (some [97]) (some [99, 99])) ↔
      (∀ i, ¬ OccursAt [97] ([98, 97] : List UInt8) i) ∨ HasRoom [98, 97] [97] [99, 99] :=
  sgeReplaceSubstring_replaces_iff clearedHeap ⟨[98, 97], by decide⟩ ⟨[97], by decide⟩
    ⟨[99, 99], by decide⟩ (List.cons_ne_nil _ _)

/-- Of the four places of "aa" in "aaaaa" two are replaced by "b", which makes three bytes and a
terminator in memory for two. -/
theorem sgeReplaceSubstring_overlap : ¬ ∀ (heap : Allocator)
    (input old new : EnvironmentValues.CString), old.bytes ≠ [] →
    ReplacesLeftmost input.bytes old.bytes new.bytes
      (sgeReplaceSubstring heap (some input.bytes) (some old.bytes) (some new.bytes)) := by
  intro h
  obtain ⟨returned, hreturned, -⟩ := h clearedHeap ⟨[97, 97, 97, 97, 97], by decide⟩
    ⟨[97, 97], by decide⟩ ⟨[98], by decide⟩ (List.cons_ne_nil _ _)
  have hnone : sgeReplaceSubstring clearedHeap (some [97, 97, 97, 97, 97]) (some [97, 97])
      (some [98]) = none := by decide
  rw [hnone] at hreturned
  cases hreturned

end Replaces

end GridEngine.ReplaceSubstring
