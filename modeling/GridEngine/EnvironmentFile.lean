import Mathlib.Data.List.TakeWhile
import GridEngine.ReplaceSubstring

/-!
# The environment file of a job

`var_list_dump_to_file` writes the variables of a job to a file, each on a line of its own.
`sge_set_environment` reads the lines into a buffer of 10000 bytes, and takes what is left of a
longer line for one more variable.
-/

namespace GridEngine.EnvironmentFile
open CStrings EnvironmentValues

def equalsSign : UInt8 := 61

/-- A `VA_Type` element. -/
structure EnvVariable where
  name : EnvironmentValues.CString
  value : EnvironmentValues.CString

section Model
variable (heap : ReplaceSubstring.Allocator)

/-- The text that `var_list_dump_to_file` prints behind the equal sign. A `NULL` is not printed. -/
def escapedValue (envValue : List UInt8) : Option (List UInt8) :=
  if !envValue.contains backslash && !envValue.contains newline then some envValue
  else do
    let newEnvValue1 ← ReplaceSubstring.sgeReplaceSubstring heap (some envValue) (some [backslash])
      (some [backslash, backslash])
    let text ← (newEnvValue1.map contents).getD (some envValue)
    let newEnvValue ← ReplaceSubstring.sgeReplaceSubstring heap (some text) (some [newline])
      (some [backslash, letterN])
    (newEnvValue.or newEnvValue1).bind contents

/-- `var_list_dump_to_file`, with the bytes that it writes. -/
def varListDumpToFile : List EnvVariable → Option (List UInt8)
  | [] => some []
  | elem :: varl => do
      let text ← escapedValue heap elem.value.bytes
      let file ← varListDumpToFile varl
      return elem.name.bytes ++ equalsSign :: text ++ newline :: file

/-- `fgets` with room for `n` bytes and the zero behind them: the line, and the rest of the file. -/
def fgets : ℕ → List UInt8 → List UInt8 × List UInt8
  | n + 1, b :: file =>
      if b = newline then ([b], file)
      else
        let (line, rest) := fgets n file
        (b :: line, rest)
  | _, file => ([], file)

theorem length_fgets_le (n : ℕ) (file : List UInt8) : (fgets n file).2.length ≤ file.length := by
  induction n generalizing file with
  | zero => exact le_rfl
  | succ n ih =>
      cases file with
      | nil => exact le_rfl
      | cons b file =>
          rw [fgets]
          split_ifs
          · exact Nat.le_succ _
          · exact (ih file).trans (Nat.le_succ _)

theorem length_fgets_lt (n : ℕ) (b : UInt8) (file : List UInt8) :
    (fgets (n + 1) (b :: file)).2.length < (b :: file).length := by
  rw [fgets]
  split_ifs
  · exact Nat.lt_succ_self _
  · exact Nat.lt_succ_of_le (length_fgets_le n file)

/-- `strtok` for one delimiter: the token, and what is left behind it. -/
def strtok (delimiter : UInt8) (s : List UInt8) : Option (List UInt8 × List UInt8) :=
  let token := s.dropWhile (· = delimiter)
  if token = [] then none
  else some (token.takeWhile (· ≠ delimiter), (token.dropWhile (· ≠ delimiter)).tail)

/-- `SGE_` -/
def sgePrefix : List UInt8 := [83, 71, 69, 95]

/-- `sge_set_environment`, with the variables that it sets. There is no result when the shepherd
ends with an error. -/
def sgeSetEnvironment (userEnv : Bool) : List UInt8 → Option (List (List UInt8 × List UInt8))
  | [] => some []
  | b :: file =>
      let read := fgets 9999 (b :: file)
      let buf := read.1.takeWhile (· ≠ 0)
      if buf.length ≤ 1 then sgeSetEnvironment userEnv read.2
      else do
        let (name, left) ← strtok equalsSign buf
        if !userEnv && !sgePrefix.isPrefixOf name then sgeSetEnvironment userEnv read.2
        else
          let newValue ← unescapeEnvValue (((strtok newline left).map Prod.fst).getD [])
          let others ← sgeSetEnvironment userEnv read.2
          return (name, newValue) :: others
termination_by file => file.length
decreasing_by
  all_goals exact length_fgets_lt 9998 b file

end Model

section Dump
variable {heap : ReplaceSubstring.Allocator}

theorem replaced_bounds {value : List UInt8} (hnul : 0 ∉ value) :
    0 ∉ (sgeReplaceSubstring value [backslash] [backslash, backslash]).getD value ∧
      ((sgeReplaceSubstring value [backslash] [backslash, backslash]).getD value).length ≤
        2 * value.length := by
  rw [replace_getD]
  induction value with
  | nil => simp
  | cons c value ih =>
      rw [List.mem_cons, not_or] at hnul
      obtain ⟨hmem, hlen⟩ := ih hnul.2
      rw [List.flatMap_cons, List.mem_append, List.length_append, List.length_cons]
      split_ifs with hc
      · refine ⟨not_or.mpr ⟨by decide, hmem⟩, ?_⟩
        simp only [List.length_cons, List.length_nil]
        omega
      · refine ⟨not_or.mpr ⟨List.mem_singleton.not.mpr hnul.1, hmem⟩, ?_⟩
        rw [List.length_singleton]
        omega

theorem printed_eq {mem mem1 : Option (List UInt8)} {text text1 : Option (List UInt8)}
    (h : mem.map contents = text.map some) (h1 : mem1.map contents = text1.map some) :
    (mem.or mem1).bind contents = text.or text1 := by
  cases mem with
  | none =>
      cases text with
      | none => cases mem1 <;> cases text1 <;> simp_all
      | some text => cases h
  | some mem =>
      cases text with
      | none => cases h
      | some text => exact Option.some.inj h

theorem escapedValue_eq (value : EnvironmentValues.CString)
    (hsize : 4 * value.bytes.length + 1 < 2 ^ 31) :
    escapedValue heap value.bytes = some (value.bytes.flatMap escape) := by
  obtain ⟨hnul, hlen⟩ := replaced_bounds value.no_nul
  rw [← dumpValue_eq, escapedValue, dumpValue]
  split_ifs with hplain
  · rfl
  obtain ⟨returned1, hreturned1, hcontents1⟩ :=
    ReplaceSubstring.sgeReplaceSubstring_byte heap (b := backslash) value.no_nul
      (show 0 ∉ [backslash, backslash] by decide) rfl (by omega)
  obtain ⟨returned, hreturned, hcontents⟩ :=
    ReplaceSubstring.sgeReplaceSubstring_byte heap (b := newline) hnul
      (show 0 ∉ [backslash, letterN] by decide) rfl (by omega)
  have htext : (returned1.map contents).getD (some value.bytes) = some
      ((sgeReplaceSubstring value.bytes [backslash] [backslash, backslash]).getD value.bytes) := by
    rw [hcontents1]
    cases sgeReplaceSubstring value.bytes [backslash] [backslash, backslash] <;> rfl
  rw [hreturned1, Option.bind_eq_bind, Option.bind_some, htext, Option.bind_eq_bind,
    Option.bind_some, hreturned]
  exact printed_eq hcontents hcontents1

theorem unescapeEnvValue_escaped (value : EnvironmentValues.CString) :
    unescapeEnvValue (value.bytes.flatMap escape) = some value.bytes := by
  obtain ⟨junk, hread⟩ := unescapeEnvValue_eq (value.bytes.flatMap escape)
  rw [hread, unescape_escape, takeWhile_string value.no_nul]

end Dump

section Tokens
variable {delimiter : UInt8} {token left : List UInt8}

theorem strtok_token (hne : token ≠ []) (hd : delimiter ∉ token)
    (hleft : ∀ b ∈ left.head?, b = delimiter) :
    strtok delimiter (token ++ left) = some (token, left.tail) := by
  obtain ⟨c, token, rfl⟩ := List.exists_cons_of_ne_nil hne
  have hall : ∀ b ∈ c :: token, decide (b ≠ delimiter) = true :=
    fun b hb => by simpa using ne_of_mem_of_not_mem hb hd
  have hc : c ≠ delimiter := by simpa using hall c List.mem_cons_self
  have hdrop : (c :: token ++ left).dropWhile (· = delimiter) = c :: token ++ left := by
    rw [List.cons_append, List.dropWhile_cons_of_neg (by simpa using hc)]
  rw [strtok, hdrop, if_neg (by simp), List.takeWhile_append_of_pos hall,
    List.dropWhile_append_of_pos hall]
  cases left with
  | nil => simp
  | cons b left => simp [hleft b rfl]

theorem strtok_rest (hd : delimiter ∉ token) (hleft : left = [] ∨ left = [delimiter]) :
    ((strtok delimiter (token ++ left)).map Prod.fst).getD [] = token := by
  by_cases hne : token = []
  · rcases hleft with rfl | rfl <;> simp [hne, strtok]
  · rw [strtok_token hne hd (by rcases hleft with rfl | rfl <;> simp)]
    rfl

end Tokens

section Purpose

/-- The line of a variable, without its newline. -/
def EnvVariable.line (elem : EnvVariable) : List UInt8 :=
  elem.name.bytes ++ equalsSign :: elem.value.bytes.flatMap escape

/-- A name that can be told from the value. -/
structure EnvVariable.Named (elem : EnvVariable) : Prop where
  ne_nil : elem.name.bytes ≠ []
  equalsSign_notMem : equalsSign ∉ elem.name.bytes
  newline_notMem : newline ∉ elem.name.bytes

/-- What is set for a variable. -/
def setFor (userEnv : Bool) (elem : EnvVariable) : List (List UInt8 × List UInt8) :=
  if !userEnv && !sgePrefix.isPrefixOf elem.name.bytes then []
  else [(elem.name.bytes, elem.value.bytes)]

end Purpose

section Read
variable {buf rest file l : List UInt8} {n : ℕ} {userEnv : Bool} {elem : EnvVariable}

theorem fgets_line (hl : newline ∉ l) (hlt : l.length < n) :
    fgets n (l ++ newline :: file) = (l ++ [newline], file) := by
  induction l generalizing n with
  | nil =>
      obtain ⟨n, rfl⟩ := Nat.exists_eq_succ_of_ne_zero (Nat.ne_of_gt hlt)
      rw [List.nil_append, fgets, if_pos rfl, List.nil_append]
  | cons b l ih =>
      obtain ⟨n, rfl⟩ := Nat.exists_eq_succ_of_ne_zero (Nat.ne_of_gt (Nat.zero_lt_of_lt hlt))
      rw [List.mem_cons, not_or] at hl
      rw [List.cons_append, fgets, if_neg (Ne.symm hl.1), ih hl.2 (Nat.lt_of_succ_lt_succ hlt)]
      rfl

theorem fgets_full (hl : newline ∉ l) (hle : n ≤ l.length) :
    fgets n (l ++ file) = (l.take n, l.drop n ++ file) := by
  induction n generalizing l with
  | zero => rfl
  | succ n ih =>
      cases l with
      | nil => exact absurd hle (Nat.not_succ_le_zero n)
      | cons b l =>
          rw [List.mem_cons, not_or] at hl
          rw [List.cons_append, fgets, if_neg (Ne.symm hl.1), ih hl.2 (Nat.le_of_succ_le_succ hle)]
          rfl

theorem sgeSetEnvironment_read (hfile : file ≠ []) (hread : fgets 9999 file = (buf, rest))
    (hnul : 0 ∉ buf) : sgeSetEnvironment userEnv file =
      if buf.length ≤ 1 then sgeSetEnvironment userEnv rest
      else do
        let (name, left) ← strtok equalsSign buf
        if !userEnv && !sgePrefix.isPrefixOf name then sgeSetEnvironment userEnv rest
        else
          let newValue ← unescapeEnvValue (((strtok newline left).map Prod.fst).getD [])
          let others ← sgeSetEnvironment userEnv rest
          return (name, newValue) :: others := by
  obtain ⟨b, file, rfl⟩ := List.exists_cons_of_ne_nil hfile
  have hbuf : buf.takeWhile (· ≠ 0) = buf := by
    exact List.takeWhile_eq_self_iff.mpr fun c hc => by simpa using ne_of_mem_of_not_mem hc hnul
  rw [sgeSetEnvironment, hread]
  dsimp only
  rw [hbuf]

theorem sgeSetEnvironment_newline :
    sgeSetEnvironment userEnv (newline :: file) = sgeSetEnvironment userEnv file := by
  have hread : fgets 9999 (newline :: file) = ([newline], file) := by
    rw [fgets, if_pos rfl]
  rw [sgeSetEnvironment_read (List.cons_ne_nil _ _) hread (by decide)]
  exact if_pos le_rfl

/-- A buffer with more than one byte makes a variable. -/
theorem sgeSetEnvironment_more (hfile : file ≠ []) (hread : fgets 9999 file = (buf, rest))
    (hnul : 0 ∉ buf) (hlong : 1 < buf.length) {set : List (List UInt8 × List UInt8)}
    (h : sgeSetEnvironment true file = some set) :
    ∃ others, sgeSetEnvironment true rest = some others ∧ set.length = others.length + 1 := by
  rw [sgeSetEnvironment_read hfile hread hnul, if_neg (Nat.not_le_of_lt hlong)] at h
  obtain ⟨⟨name, left⟩, -, h⟩ := Option.bind_eq_some_iff.mp h
  obtain ⟨newValue, -, h⟩ := Option.bind_eq_some_iff.mp h
  obtain ⟨others, hothers, h⟩ := Option.bind_eq_some_iff.mp h
  cases h
  exact ⟨others, hothers, rfl⟩

/-- A line makes one variable at least, and two when it is too long for the buffer. -/
theorem sgeSetEnvironment_length (hl : newline ∉ l) (hnul : 0 ∉ l) (hne : l ≠ [])
    {set : List (List UInt8 × List UInt8)}
    (h : sgeSetEnvironment true (l ++ newline :: file) = some set) :
    ∃ others, sgeSetEnvironment true file = some others ∧
      others.length + (if l.length < 10000 then 1 else 2) ≤ set.length := by
  induction hlen : l.length using Nat.strong_induction_on generalizing l set with
  | _ length ih =>
      have hpos := List.length_pos_iff.mpr hne
      have hfile : l ++ newline :: file ≠ [] := by simp
      by_cases hshort : l.length < 9999
      · obtain ⟨others, hothers, hset⟩ := sgeSetEnvironment_more hfile (fgets_line hl hshort)
          (by simp [hnul]; decide) (by simp [hpos]) h
        refine ⟨others, hothers, ?_⟩
        rw [if_pos (by omega)]
        exact hset.ge
      · rw [not_lt] at hshort
        obtain ⟨others, hothers, hset⟩ := sgeSetEnvironment_more hfile (fgets_full hl hshort)
          (fun hmem => hnul (List.mem_of_mem_take hmem)) (by rw [List.length_take]; omega) h
        by_cases hrest : l.drop 9999 = []
        · rw [hrest, List.nil_append, sgeSetEnvironment_newline] at hothers
          have hle := List.drop_eq_nil_iff.mp hrest
          refine ⟨others, hothers, ?_⟩
          rw [if_pos (by omega)]
          exact hset.ge
        · obtain ⟨others', hothers', hle⟩ := ih (l.drop 9999).length
            (by rw [List.length_drop]; omega) (fun hmem => hl (List.mem_of_mem_drop hmem))
            (fun hmem => hnul (List.mem_of_mem_drop hmem)) hrest hothers rfl
          refine ⟨others', hothers', ?_⟩
          split_ifs at hle ⊢ <;> omega

theorem EnvVariable.newline_notMem_line (hnamed : elem.Named) : newline ∉ elem.line := by
  rw [EnvVariable.line, List.mem_append, List.mem_cons]
  rintro (hmem | heq | hmem)
  · exact hnamed.newline_notMem hmem
  · cases heq
  · exact newline_notMem_escaped _ hmem

theorem EnvVariable.nul_notMem_line : 0 ∉ elem.line := by
  rw [EnvVariable.line, List.mem_append, List.mem_cons]
  rintro (hmem | heq | hmem)
  · exact elem.name.no_nul hmem
  · cases heq
  · exact nul_notMem_escaped elem.value.no_nul hmem

theorem fgets_fits (hl : newline ∉ l) (hfits : l.length < 10000) : ∃ tail rest,
    (tail = [] ∨ tail = [newline]) ∧ fgets 9999 (l ++ newline :: file) = (l ++ tail, rest) ∧
      sgeSetEnvironment userEnv rest = sgeSetEnvironment userEnv file := by
  by_cases hshort : l.length < 9999
  · exact ⟨[newline], file, .inr rfl, fgets_line hl hshort, rfl⟩
  · have hfull := @fgets_full (newline :: file) l 9999 hl (by omega)
    rw [List.take_of_length_le (by omega), List.drop_eq_nil_of_le (by omega)] at hfull
    exact ⟨[], newline :: file, .inl rfl, by rwa [List.append_nil], sgeSetEnvironment_newline⟩

/-- A line that fits is read back, also when its newline does not fit. -/
theorem sgeSetEnvironment_line (hnamed : elem.Named) (hfits : elem.line.length < 10000) :
    sgeSetEnvironment userEnv (elem.line ++ newline :: file) =
      (sgeSetEnvironment userEnv file).map (setFor userEnv elem ++ ·) := by
  obtain ⟨tail, rest, htail, hread, hrest⟩ :=
    @fgets_fits file elem.line userEnv (elem.newline_notMem_line hnamed) hfits
  have hnul : 0 ∉ elem.line ++ tail := by
    rw [List.mem_append, not_or]
    exact ⟨elem.nul_notMem_line, by rcases htail with rfl | rfl <;> decide⟩
  have hlong : ¬ (elem.line ++ tail).length ≤ 1 := by
    have hpos := List.length_pos_iff.mpr hnamed.ne_nil
    simp only [EnvVariable.line, List.length_append, List.length_cons]
    omega
  rw [sgeSetEnvironment_read (by simp) hread hnul, if_neg hlong, hrest, EnvVariable.line,
    List.append_assoc, List.cons_append, strtok_token hnamed.ne_nil hnamed.equalsSign_notMem
      (by simp), Option.bind_eq_bind, Option.bind_some]
  dsimp only [List.tail_cons]
  rw [strtok_rest (newline_notMem_escaped _) htail, unescapeEnvValue_escaped, setFor]
  split_ifs
  · simp
  · cases sgeSetEnvironment userEnv file <;> rfl

def lines (varl : List EnvVariable) : List UInt8 :=
  varl.flatMap fun elem => elem.line ++ [newline]

theorem lines_cons (elem : EnvVariable) (varl : List EnvVariable) :
    lines (elem :: varl) = elem.line ++ newline :: lines varl := by
  rw [lines, List.flatMap_cons, List.append_assoc]
  rfl

theorem varListDumpToFile_eq {heap : ReplaceSubstring.Allocator} {varl : List EnvVariable}
    (hsize : ∀ elem ∈ varl, 4 * elem.value.bytes.length + 1 < 2 ^ 31) :
    varListDumpToFile heap varl = some (lines varl) := by
  induction varl with
  | nil => rfl
  | cons elem varl ih =>
      obtain ⟨hvalue, hsize⟩ := List.forall_mem_cons.mp hsize
      rw [varListDumpToFile, escapedValue_eq elem.value hvalue, ih hsize, lines_cons,
        EnvVariable.line]
      simp

theorem sgeSetEnvironment_lines {varl : List EnvVariable} (hnamed : ∀ elem ∈ varl, elem.Named)
    (hfits : ∀ elem ∈ varl, elem.line.length < 10000) :
    sgeSetEnvironment userEnv (lines varl) = some (varl.flatMap (setFor userEnv)) := by
  induction varl with
  | nil => rw [lines, List.flatMap_nil, sgeSetEnvironment, List.flatMap_nil]
  | cons elem varl ih =>
      obtain ⟨helem, hnamed⟩ := List.forall_mem_cons.mp hnamed
      obtain ⟨hfit, hfits⟩ := List.forall_mem_cons.mp hfits
      rw [lines_cons, sgeSetEnvironment_line helem hfit, ih hnamed hfits]
      rfl

/-- As many variables as lines are set only if the lines fit. -/
theorem fits_of_length {varl : List EnvVariable} (hnamed : ∀ elem ∈ varl, elem.Named)
    {set : List (List UInt8 × List UInt8)} (h : sgeSetEnvironment true (lines varl) = some set) :
    varl.length ≤ set.length ∧
      (set.length = varl.length → ∀ elem ∈ varl, elem.line.length < 10000) := by
  induction varl generalizing set with
  | nil => exact ⟨Nat.zero_le _, fun _ => List.forall_mem_nil _⟩
  | cons elem varl ih =>
      obtain ⟨helem, hnamed⟩ := List.forall_mem_cons.mp hnamed
      rw [lines_cons] at h
      obtain ⟨others, hothers, hle⟩ := sgeSetEnvironment_length (elem.newline_notMem_line helem)
        elem.nul_notMem_line (by simp [EnvVariable.line]) h
      obtain ⟨hlength, hfits⟩ := ih hnamed hothers
      rw [List.length_cons, List.forall_mem_cons]
      split_ifs at hle with hfit
      · exact ⟨by omega, fun heq => ⟨hfit, hfits (by omega)⟩⟩
      · exact ⟨by omega, fun heq => by omega⟩

/-- A variable with a value of two lines. -/
def twoLines : EnvVariable := ⟨⟨[65], by decide⟩, ⟨[98, newline, 99], by decide⟩⟩

end Read

end GridEngine.EnvironmentFile
