import Mathlib.Data.List.Basic

/-!
# Environment values in a file

`var_list_dump_to_file` escapes the backslashes of a value and then its newlines, so that the value
stands on one line. `unescape_env_value` undoes both in one pass over the bytes of the line.
-/

namespace GridEngine.EnvironmentValues

def backslash : UInt8 := 92

def newline : UInt8 := 10

def letterN : UInt8 := 110

/-- A string in memory: its bytes, none of them the terminating zero. -/
structure CString where
  bytes : List UInt8
  no_nul : 0 ∉ bytes

/-- The places of `old` in `sge_replace_substring`. -/
def toReplace (old : List UInt8) : List UInt8 → ℕ
  | [] => 0
  | b :: source => (if old.isPrefixOf (b :: source) then 1 else 0) + toReplace old source

/-- The copy of `sge_replace_substring`, for a pattern that is not empty. -/
def replaceFrom (old new : List UInt8) : List UInt8 → List UInt8
  | [] => []
  | b :: source =>
      if old.isPrefixOf (b :: source) then
        new ++ replaceFrom old new (source.drop (old.length - 1))
      else b :: replaceFrom old new source
termination_by source => source.length
decreasing_by
  · rw [List.length_drop, List.length_cons]
    omega
  · exact Nat.lt_succ_self _

/-- `sge_replace_substring`: nothing when there is nothing to replace. -/
def sgeReplaceSubstring (input old new : List UInt8) : Option (List UInt8) :=
  if toReplace old input = 0 then none else some (replaceFrom old new input)

/-- The text that `var_list_dump_to_file` writes behind the equal sign. -/
def dumpValue (envValue : List UInt8) : Option (List UInt8) :=
  if !envValue.contains backslash && !envValue.contains newline then some envValue
  else
    let newEnvValue1 := sgeReplaceSubstring envValue [backslash] [backslash, backslash]
    let newEnvValue :=
      sgeReplaceSubstring (newEnvValue1.getD envValue) [newline] [backslash, letterN]
    newEnvValue.or newEnvValue1

/-- A byte of a string with its terminating zero. Behind it nothing can be read. -/
def readByte (value : List UInt8) (i : ℕ) : Option UInt8 := (value ++ [0])[i]?

/-- A byte of the copy. Behind its end nothing can be written. -/
def writeByte (newValue : List UInt8) (j : ℕ) (c : UInt8) : Option (List UInt8) :=
  if j < newValue.length then some (newValue.set j c) else none

/-- The loop of `unescape_env_value`. -/
def unescapeLoop (value : List UInt8) (i j : ℕ) (newValue : List UInt8) : Option (List UInt8) :=
  if i ≤ value.length then do
    let c ← readByte value i
    if c = backslash then
      let next ← readByte value (i + 1)
      if next = letterN then
        unescapeLoop value (i + 2) (j + 1) (← writeByte newValue j newline)
      else if next = backslash then
        unescapeLoop value (i + 2) (j + 1) (← writeByte newValue j backslash)
      else unescapeLoop value (i + 1) (j + 1) (← writeByte newValue j c)
    else unescapeLoop value (i + 1) (j + 1) (← writeByte newValue j c)
  else some newValue
termination_by value.length + 1 - i

/-- `unescape_env_value`: the string in the copy, or nothing when the loop leaves a buffer. -/
def unescapeEnvValue (value : List UInt8) : Option (List UInt8) :=
  (unescapeLoop value 0 0 (value ++ [0])).map (fun newValue => newValue.takeWhile (· ≠ 0))

/-- One byte of a value with its escape. -/
def escape (c : UInt8) : List UInt8 :=
  if c = backslash then [backslash, backslash] else if c = newline then [backslash, letterN] else [c]

/-- A text without its escapes. -/
def unescape : List UInt8 → List UInt8
  | [] => []
  | [c] => [c]
  | c :: next :: rest =>
      if c = backslash then
        if next = letterN then newline :: unescape rest
        else if next = backslash then backslash :: unescape rest
        else c :: unescape (next :: rest)
      else c :: unescape (next :: rest)

section Dump

theorem toReplace_eq_zero_iff (b : UInt8) (source : List UInt8) :
    toReplace [b] source = 0 ↔ b ∉ source := by
  induction source with
  | nil => simp [toReplace]
  | cons c source ih =>
      by_cases hc : b = c
      · simp [toReplace, hc]
      · simp [toReplace, hc, ih]

theorem replaceFrom_eq (b : UInt8) (new source : List UInt8) :
    replaceFrom [b] new source = source.flatMap (fun c => if c = b then new else [c]) := by
  induction source with
  | nil => simp [replaceFrom]
  | cons c source ih =>
      rw [replaceFrom, List.flatMap_cons, ← ih]
      by_cases hc : c = b
      · simp [hc]
      · simp [hc, Ne.symm hc]

theorem replace_eq_none_iff (b : UInt8) (new source : List UInt8) :
    sgeReplaceSubstring source [b] new = none ↔ b ∉ source := by
  rw [← toReplace_eq_zero_iff]
  simp [sgeReplaceSubstring]

theorem replace_getD (b : UInt8) (new source : List UInt8) :
    (sgeReplaceSubstring source [b] new).getD source =
      source.flatMap (fun c => if c = b then new else [c]) := by
  unfold sgeReplaceSubstring
  split_ifs with hnone
  · have hsame : ∀ c ∈ source, (if c = b then new else [c]) = [c] := by
      intro c hc
      rw [if_neg]
      rintro rfl
      exact (toReplace_eq_zero_iff c source).mp hnone hc
    rw [Option.getD_none, List.flatMap_congr hsame, List.flatMap_singleton']
  · rw [Option.getD_some, replaceFrom_eq]

theorem escape_eq (c : UInt8) :
    (if c = backslash then [backslash, backslash] else [c]).flatMap
      (fun c => if c = newline then [backslash, letterN] else [c]) = escape c := by
  unfold escape
  split_ifs with hc hc'
  · rfl
  · simp [hc']
  · simp [hc']

/-- The text that is written is the value with the escape of each of its bytes. -/
theorem dumpValue_eq (envValue : List UInt8) :
    dumpValue envValue = some (envValue.flatMap escape) := by
  unfold dumpValue
  split_ifs with hplain
  · simp only [Bool.and_eq_true, Bool.not_eq_true', List.contains_eq_mem, decide_eq_false_iff_not]
      at hplain
    have hsame : ∀ c ∈ envValue, escape c = [c] := by
      intro c hc
      have hbackslash : c ≠ backslash := ne_of_mem_of_not_mem hc hplain.1
      have hnewline : c ≠ newline := ne_of_mem_of_not_mem hc hplain.2
      rw [escape, if_neg hbackslash, if_neg hnewline]
    rw [List.flatMap_congr hsame, List.flatMap_singleton']
  · have hfirst := replace_getD backslash [backslash, backslash] envValue
    have hboth := replace_getD newline [backslash, letterN]
      ((sgeReplaceSubstring envValue [backslash] [backslash, backslash]).getD envValue)
    rw [hfirst, List.flatMap_assoc] at hboth
    simp only [escape_eq] at hboth
    rw [← hfirst] at hboth
    simp only
    cases hnew1 : sgeReplaceSubstring envValue [backslash] [backslash, backslash] with
    | some text1 =>
        rw [hnew1, Option.getD_some] at hboth
        rw [Option.getD_some]
        cases hnew : sgeReplaceSubstring text1 [newline] [backslash, letterN] with
        | some text => simpa [hnew] using hboth
        | none => simpa [hnew] using hboth
    | none =>
        rw [hnew1, Option.getD_none] at hboth
        rw [Option.getD_none]
        cases hnew : sgeReplaceSubstring envValue [newline] [backslash, letterN] with
        | some text => simpa [hnew] using hboth
        | none =>
            rw [replace_eq_none_iff] at hnew1 hnew
            simp [hnew1, hnew] at hplain

end Dump

section Unescape

theorem readByte_append (before rest : List UInt8) (c : UInt8) :
    readByte (before ++ c :: rest) before.length = some c := by
  simp [readByte]

theorem readByte_end (value : List UInt8) : readByte value value.length = some 0 := by
  simp [readByte]

theorem writeByte_append (out : List UInt8) (d : UInt8) (tail : List UInt8) (c : UInt8) :
    writeByte (out ++ d :: tail) out.length c = some ((out ++ [c]) ++ tail) := by
  simp [writeByte]

theorem readByte_next (before rest : List UInt8) (c : UInt8) :
    readByte (before ++ c :: rest) (before.length + 1) = some (rest.head?.getD 0) := by
  cases rest with
  | nil => simp [readByte]
  | cons next rest => simp [readByte]

section Steps
variable (before rest out tail : List UInt8) (d : UInt8)

theorem unescapeLoop_copy (c : UInt8)
    (hcopy : c = backslash → rest.head?.getD 0 ≠ letterN ∧ rest.head?.getD 0 ≠ backslash) :
    unescapeLoop (before ++ c :: rest) before.length out.length (out ++ d :: tail) =
      unescapeLoop (before ++ [c] ++ rest) (before ++ [c]).length (out ++ [c]).length
        (out ++ [c] ++ tail) := by
  rw [unescapeLoop, if_pos (by simp), readByte_append, readByte_next]
  simp only [writeByte_append, Option.bind_eq_bind, Option.bind_some, List.length_append,
    List.length_singleton, List.append_assoc, List.singleton_append]
  split_ifs with hc hn hb
  · exact absurd hn (hcopy hc).1
  · exact absurd hb (hcopy hc).2
  · rfl
  · rfl

theorem unescapeLoop_newline :
    unescapeLoop (before ++ backslash :: letterN :: rest) before.length out.length
        (out ++ d :: tail) =
      unescapeLoop (before ++ [backslash, letterN] ++ rest) (before ++ [backslash, letterN]).length
        (out ++ [newline]).length (out ++ [newline] ++ tail) := by
  rw [unescapeLoop, if_pos (by simp), readByte_append, readByte_next]
  simp [writeByte_append]

theorem unescapeLoop_backslash :
    unescapeLoop (before ++ backslash :: backslash :: rest) before.length out.length
        (out ++ d :: tail) =
      unescapeLoop (before ++ [backslash, backslash] ++ rest)
        (before ++ [backslash, backslash]).length (out ++ [backslash]).length
        (out ++ [backslash] ++ tail) := by
  have hne : backslash ≠ letterN := by decide
  rw [unescapeLoop, if_pos (by simp), readByte_append, readByte_next]
  simp [writeByte_append, hne]

theorem unescapeLoop_end :
    unescapeLoop before before.length out.length (out ++ d :: tail) = some (out ++ 0 :: tail) := by
  have hne : (0 : UInt8) ≠ backslash := by decide
  rw [unescapeLoop, if_pos (Nat.le_refl _), readByte_end]
  simp only [writeByte_append, Option.bind_eq_bind, Option.bind_some, hne, if_false]
  rw [unescapeLoop, if_neg (by omega)]
  simp

end Steps

/-- The loop stays within the string and the copy when the copy has room for what is left. -/
theorem unescapeLoop_eq (before rest out tail : List UInt8) (hroom : rest.length < tail.length) :
    ∃ junk, unescapeLoop (before ++ rest) before.length out.length (out ++ tail) =
      some (out ++ unescape rest ++ 0 :: junk) := by
  induction rest using unescape.induct generalizing before out tail with
  | case1 =>
      obtain ⟨d, tail, rfl⟩ := List.exists_cons_of_length_pos hroom
      rw [List.append_nil, unescapeLoop_end]
      exact ⟨tail, by simp [unescape]⟩
  | case2 c =>
      obtain ⟨d, tail, rfl⟩ := List.exists_cons_of_length_pos (by omega : 0 < tail.length)
      obtain ⟨d', tail, rfl⟩ := List.exists_cons_of_length_pos (by simpa using hroom)
      rw [unescapeLoop_copy before [] out _ d c (fun _ => by decide), List.append_nil,
        unescapeLoop_end]
      exact ⟨tail, by simp [unescape]⟩
  | case3 rest ih =>
      obtain ⟨d, tail, rfl⟩ := List.exists_cons_of_length_pos (by omega : 0 < tail.length)
      rw [unescapeLoop_newline]
      obtain ⟨junk, hjunk⟩ := ih (before ++ [backslash, letterN]) (out ++ [newline]) tail
        (by simp at hroom; omega)
      exact ⟨junk, by simpa [unescape] using hjunk⟩
  | case4 rest hne ih =>
      obtain ⟨d, tail, rfl⟩ := List.exists_cons_of_length_pos (by omega : 0 < tail.length)
      rw [unescapeLoop_backslash]
      obtain ⟨junk, hjunk⟩ := ih (before ++ [backslash, backslash]) (out ++ [backslash]) tail
        (by simp at hroom; omega)
      exact ⟨junk, by simpa [unescape, hne] using hjunk⟩
  | case5 next rest hn hb ih =>
      obtain ⟨d, tail, rfl⟩ := List.exists_cons_of_length_pos (by omega : 0 < tail.length)
      rw [unescapeLoop_copy before (next :: rest) out tail d backslash (fun _ => ⟨hn, hb⟩)]
      obtain ⟨junk, hjunk⟩ := ih (before ++ [backslash]) (out ++ [backslash]) tail
        (by simp at hroom ⊢; omega)
      exact ⟨junk, by simpa [unescape, hn, hb] using hjunk⟩
  | case6 c next rest hc ih =>
      obtain ⟨d, tail, rfl⟩ := List.exists_cons_of_length_pos (by omega : 0 < tail.length)
      rw [unescapeLoop_copy before (next :: rest) out tail d c (fun h => absurd h hc)]
      obtain ⟨junk, hjunk⟩ := ih (before ++ [c]) (out ++ [c]) tail (by simp at hroom ⊢; omega)
      exact ⟨junk, by simpa [unescape, hc] using hjunk⟩

theorem unescape_cons {c : UInt8} (hc : c ≠ backslash) (rest : List UInt8) :
    unescape (c :: rest) = c :: unescape rest := by
  cases rest with
  | nil => rfl
  | cons next rest => rw [unescape, if_neg hc]

theorem unescape_escape_append (c : UInt8) (rest : List UInt8) :
    unescape (escape c ++ rest) = c :: unescape rest := by
  have hne : backslash ≠ letterN := by decide
  by_cases hbackslash : c = backslash
  · simp [escape, hbackslash, unescape, hne]
  by_cases hnewline : c = newline
  · have hnewline' : newline ≠ backslash := by decide
    simp [escape, hnewline, hnewline', unescape]
  · simp [escape, hbackslash, hnewline, unescape_cons hbackslash]

theorem unescape_escape (value : List UInt8) : unescape (value.flatMap escape) = value := by
  induction value with
  | nil => rfl
  | cons c value ih => rw [List.flatMap_cons, unescape_escape_append, ih]

/-- `unescape_env_value` ends within both buffers, and its string is the text without escapes. -/
theorem unescapeEnvValue_eq (text : List UInt8) :
    ∃ junk, unescapeEnvValue text =
      some ((unescape text ++ 0 :: junk).takeWhile (· ≠ 0)) := by
  obtain ⟨junk, hloop⟩ := unescapeLoop_eq [] text [] (text ++ [0]) (by simp)
  refine ⟨junk, ?_⟩
  rw [unescapeEnvValue]
  simp only [List.nil_append, List.length_nil] at hloop
  rw [hloop, Option.map_some]

theorem takeWhile_string {text : List UInt8} (hnul : 0 ∉ text) (junk : List UInt8) :
    (text ++ 0 :: junk).takeWhile (· ≠ 0) = text := by
  induction text with
  | nil => simp
  | cons c text ih =>
      rw [List.mem_cons, not_or] at hnul
      rw [List.cons_append, List.takeWhile_cons_of_pos (by simp [Ne.symm hnul.1]), ih hnul.2]

end Unescape

theorem mem_escape {c d : UInt8} (hd : d ∈ escape c) :
    d = c ∧ c ≠ newline ∨ d = backslash ∨ d = letterN := by
  unfold escape at hd
  split_ifs at hd with hbackslash hnewline
  · simp at hd
    exact .inr (.inl hd)
  · simpa using Or.inr (show d = backslash ∨ d = letterN by simpa using hd)
  · exact .inl ⟨List.mem_singleton.mp hd, hnewline⟩

theorem newline_notMem_escaped (value : List UInt8) : newline ∉ value.flatMap escape := by
  intro hmem
  obtain ⟨c, -, hc⟩ := List.mem_flatMap.mp hmem
  obtain ⟨heq, hne⟩ | h | h := mem_escape hc
  · exact hne heq.symm
  · cases h
  · cases h

theorem nul_notMem_escaped {value : List UInt8} (hnul : 0 ∉ value) : 0 ∉ value.flatMap escape := by
  intro hmem
  obtain ⟨c, hcmem, hc⟩ := List.mem_flatMap.mp hmem
  obtain ⟨rfl, -⟩ | h | h := mem_escape hc
  · exact hnul hcmem
  · cases h
  · cases h

end GridEngine.EnvironmentValues
