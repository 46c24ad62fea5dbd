import GridEngine.CStrings
import GridEngine.EnvironmentValues

/-!
# Dynamic strings

A `dstring` grows its buffer in chunks, or is a wrapper of a buffer that its user has. All
operations have the buffer as the bytes that are allocated, so that a write outside of it is seen.
Formatted text goes through a buffer of `BUFSIZ` bytes when it is not longer than `BUFSIZ`, which
loses the last byte of a text of just that length.
-/

namespace GridEngine.Dstring
open CStrings EnvironmentValues

def REALLOC_CHUNK : ℕ := 1024

def BUFSIZ : ℕ := 8192

/-- `dstring`. -/
structure DString where
  s : Option (List UInt8)
  length : ℕ
  size : ℕ
  isStatic : Bool
deriving DecidableEq

/-- `DSTRING_INIT`. -/
def dstringInit : DString := ⟨none, 0, 0, false⟩

/-- `sge_dstring_init` with a buffer of all the bytes that its size names. -/
def sgeDstringInit (buffer : List UInt8) : Option DString := do
  let s ← write buffer 0 [0]
  some ⟨some s, 0, s.length - 1, true⟩

/-- The bytes of a fresh buffer are whatever `fresh` says. -/
def freshBytes (fresh : ℕ → UInt8) (start n : ℕ) : List UInt8 := (List.range' start n).map fresh

/-- `sge_dstring_allocate`. -/
def sgeDstringAllocate (fresh : ℕ → UInt8) (sb : DString) (request : ℕ) : Option DString := do
  let chunks := request / REALLOC_CHUNK + 1
  let size := sb.size + chunks * REALLOC_CHUNK
  match sb.s with
  | some s =>
      some { sb with size := size, s := some (s.take size ++ freshBytes fresh s.length (size - s.length)) }
  | none =>
      let s ← write (freshBytes fresh 0 size) 0 [0]
      some { sb with size := size, s := some s }

/-- Allocates when `required` bytes do not fit. -/
def ensure (fresh : ℕ → UInt8) (sb : DString) (required : ℕ) : Option DString :=
  if required > sb.size then sgeDstringAllocate fresh sb (required - sb.size) else some sb

/-- `sge_dstring_append`. -/
def sgeDstringAppend (fresh : ℕ → UInt8) (sb : DString) : Option (List UInt8) → Option DString
  | none => some sb
  | some a => do
      let len := a.length
      if sb.isStatic then
        let len := if sb.length + len > sb.size then sb.size - sb.length else len
        let s ← strncat (← sb.s) sb.length a len
        some { sb with s := some s, length := sb.length + len }
      else if len = 0 ∧ sb.s.isSome then some sb
      else
        let sb ← ensure fresh sb (len + sb.length + 1)
        let s ← strcat (← sb.s) sb.length a
        some { sb with s := some s, length := sb.length + len }

/-- `sge_dstring_append_char`. -/
def sgeDstringAppendChar (fresh : ℕ → UInt8) (sb : DString) (a : UInt8) : Option DString := do
  if a = 0 then some sb
  else if sb.isStatic then
    if sb.length < sb.size then
      let s ← write (← sb.s) sb.length [a]
      let s ← write s (sb.length + 1) [0]
      some { sb with s := some s, length := sb.length + 1 }
    else some sb
  else
    let sb ← ensure fresh sb (sb.length + 1 + 1)
    let s ← write (← sb.s) sb.length [a]
    let s ← write s (sb.length + 1) [0]
    some { sb with s := some s, length := sb.length + 1 }

/-- `sge_dstring_clear`. -/
def sgeDstringClear (sb : DString) : Option DString :=
  match sb.s with
  | some s => (write s 0 [0]).map fun s => { sb with s := some s, length := 0 }
  | none => some { sb with length := 0 }

/-- `sge_dstring_free`. -/
def sgeDstringFree (sb : DString) : DString :=
  if !sb.isStatic && sb.s.isSome then { sb with s := none, size := 0, length := 0 } else sb

/-- `sge_dstring_copy_string`. -/
def sgeDstringCopyString (fresh : ℕ → UInt8) (sb : DString) (str : Option (List UInt8)) :
    Option DString := do
  let sb ← sgeDstringClear sb
  sgeDstringAppend fresh sb str

/-- `vsnprintf` into a buffer of `n` bytes: the length of the whole text and what was written. -/
def vsnprintf (n : ℕ) (text : List UInt8) : ℕ × List UInt8 := (text.length, text.take (n - 1))

/-- `sge_dstring_vsprintf_copy_append`; a C99 `vsnprintf` never returns -1. -/
def sgeDstringVsprintfCopyAppend (function : DString → Option (List UInt8) → Option DString)
    (sb : DString) : Option (List UInt8) → Option DString
  | none => some sb
  | some text =>
      let (vsnprintfRet, staticBuffer) := vsnprintf BUFSIZ text
      if vsnprintfRet > BUFSIZ then
        let (_, dynBuffer) := vsnprintf (vsnprintfRet + 1) text
        function sb (some dynBuffer)
      else function sb (some staticBuffer)

/-- A call; for the formatted ones the text that their format and arguments stand for. -/
inductive Op
  | append (a : Option CString)
  | appendChar (a : UInt8)
  | sprintfAppend (text : Option CString)
  | sprintf (text : Option CString)
  | copyString (str : Option CString)
  | clear
  | free

/-- One call, with the bytes that fresh memory has at that time. -/
def step (sb : DString) (call : (ℕ → UInt8) × Op) : Option DString :=
  match call.2 with
  | .append a => sgeDstringAppend call.1 sb (a.map CString.bytes)
  | .appendChar a => sgeDstringAppendChar call.1 sb a
  | .sprintfAppend text =>
      sgeDstringVsprintfCopyAppend (sgeDstringAppend call.1) sb (text.map CString.bytes)
  | .sprintf text =>
      sgeDstringVsprintfCopyAppend (sgeDstringCopyString call.1) sb (text.map CString.bytes)
  | .copyString str => sgeDstringCopyString call.1 sb (str.map CString.bytes)
  | .clear => sgeDstringClear sb
  | .free => some (sgeDstringFree sb)

def run (sb : DString) (calls : List ((ℕ → UInt8) × Op)) : Option DString := calls.foldlM step sb

section Purpose

/-- The bytes of a text that may be `NULL`. -/
def bytes (a : Option CString) : List UInt8 := (a.map CString.bytes).getD []

/-- The text after a call, as the caller understands it; `frees` says that `free` empties it. -/
def textAfter (frees : Bool) (text : List UInt8) : Op → List UInt8
  | .append a => text ++ bytes a
  | .appendChar a => if a = 0 then text else text ++ [a]
  | .sprintfAppend a => text ++ bytes a
  | .sprintf none => text
  | .sprintf (some a) => a.bytes
  | .copyString str => bytes str
  | .clear => []
  | .free => if frees then [] else text

/-- The texts appended since the last clear, copy or free. -/
def textOf (frees : Bool) (ops : List Op) : List UInt8 := ops.foldl (textAfter frees) []

/-- The formatted text of a call does not have exactly `BUFSIZ` bytes. -/
def Op.Fits : Op → Prop
  | .sprintfAppend (some a) => a.bytes.length ≠ BUFSIZ
  | .sprintf (some a) => a.bytes.length ≠ BUFSIZ
  | _ => True

end Purpose

section Spec
variable {fresh : ℕ → UInt8} {sb : DString} {text a : List UInt8} {n : ℕ}

/-- A string whose buffer `mem` holds the text and has the size that is noted. -/
structure Allocated (sb : DString) (mem text : List UInt8) : Prop where
  notStatic : sb.isStatic = false
  s_eq : sb.s = some mem
  holds : Holds mem text
  length_eq : sb.length = text.length
  size_eq : sb.size = mem.length

/-- A dynamic string that is `text`; where nothing is allocated yet the text is empty. -/
def Dynamic (sb : DString) (text : List UInt8) : Prop :=
  sb = dstringInit ∧ text = [] ∨ ∃ mem, Allocated sb mem text

/-- A static string in a buffer of `n` bytes: the longest prefix of `text` that fits. -/
structure Static (n : ℕ) (sb : DString) (text : List UInt8) : Prop where
  isStatic : sb.isStatic = true
  size_eq : sb.size = n - 1
  length_eq : sb.length = (text.take (n - 1)).length
  buffer : ∃ mem, sb.s = some mem ∧ Holds mem (text.take (n - 1)) ∧ mem.length = n

theorem freshBytes_length (start n : ℕ) : (freshBytes fresh start n).length = n := by
  rw [freshBytes, List.length_map, List.length_range']

theorem sgeDstringAllocate_spec (fresh : ℕ → UInt8) (h : Dynamic sb text) (request : ℕ) :
    ∃ sb' mem, sgeDstringAllocate fresh sb request = some sb' ∧ Allocated sb' mem text ∧
      sb.size + request ≤ mem.length := by
  obtain ⟨grow, hgrow⟩ : ∃ grow, (request / REALLOC_CHUNK + 1) * REALLOC_CHUNK = grow := ⟨_, rfl⟩
  have hlt : request < grow := by
    unfold REALLOC_CHUNK at hgrow
    omega
  unfold sgeDstringAllocate
  simp only [hgrow]
  rcases h with ⟨rfl, rfl⟩ | ⟨mem, h⟩
  · have hne : freshBytes fresh 0 (dstringInit.size + grow) ≠ [] := by
      rw [← List.length_pos_iff_ne_nil, freshBytes_length]
      omega
    obtain ⟨mem, hwrite, hmem, hlen⟩ := Holds.write_empty hne
    rw [freshBytes_length] at hlen
    have hs : dstringInit.s = none := rfl
    simp only [hs, hwrite, Option.bind_eq_bind, Option.bind_some]
    exact ⟨_, mem, rfl, ⟨rfl, rfl, hmem, rfl, hlen.symm⟩, by omega⟩
  · have hsize := h.size_eq
    have htake : mem.take (sb.size + grow) = mem := List.take_of_length_le (by omega)
    have hlen : (mem ++ freshBytes fresh mem.length (sb.size + grow - mem.length)).length =
        sb.size + grow := by
      rw [List.length_append, freshBytes_length]
      omega
    simp only [h.s_eq, htake]
    exact ⟨_, _, rfl, ⟨h.notStatic, rfl, h.holds.append _, h.length_eq, hlen.symm⟩, by omega⟩

theorem ensure_spec (fresh : ℕ → UInt8) (h : Dynamic sb text) {required : ℕ} (hpos : 0 < required) :
    ∃ sb' mem, ensure fresh sb required = some sb' ∧ Allocated sb' mem text ∧
      required ≤ mem.length := by
  unfold ensure
  split_ifs with hlt
  · obtain ⟨sb', mem, halloc, hmem, hle⟩ :=
      sgeDstringAllocate_spec fresh h (required - sb.size)
    exact ⟨sb', mem, halloc, hmem, by omega⟩
  · rcases h with ⟨rfl, rfl⟩ | ⟨mem, h⟩
    · exact absurd hpos hlt
    · exact ⟨sb, mem, rfl, h, by rw [← h.size_eq]; omega⟩

theorem Dynamic.notStatic (h : Dynamic sb text) : sb.isStatic = false := by
  rcases h with ⟨rfl, -⟩ | ⟨mem, h⟩
  · rfl
  · exact h.notStatic

theorem Dynamic.length_eq (h : Dynamic sb text) : sb.length = text.length := by
  rcases h with ⟨rfl, rfl⟩ | ⟨mem, h⟩
  · rfl
  · exact h.length_eq

theorem append_dynamic (fresh : ℕ → UInt8) (h : Dynamic sb text) (ha : 0 ∉ a) :
    ∃ sb', sgeDstringAppend fresh sb (some a) = some sb' ∧ Dynamic sb' (text ++ a) := by
  simp only [sgeDstringAppend, h.notStatic, Bool.false_eq_true, if_false]
  split_ifs with hempty
  · obtain rfl := List.eq_nil_of_length_eq_zero hempty.1
    exact ⟨sb, rfl, by rwa [List.append_nil]⟩
  · obtain ⟨sb', mem, hensure, hmem, hle⟩ :=
      ensure_spec fresh h (Nat.succ_pos (a.length + sb.length))
    have hlength := h.length_eq
    obtain ⟨mem', hcat, hmem', hlen⟩ := hmem.holds.strcat_spec ha (by omega)
    simp only [hensure, hmem.s_eq, hmem.length_eq, hcat, Option.bind_eq_bind, Option.bind_some]
    exact ⟨_, rfl, Or.inr ⟨mem', hmem.notStatic, rfl, hmem', (List.length_append ..).symm,
      hmem.size_eq.trans hlen.symm⟩⟩

theorem appendChar_dynamic (fresh : ℕ → UInt8) (h : Dynamic sb text) (c : UInt8) :
    ∃ sb', sgeDstringAppendChar fresh sb c = some sb' ∧
      Dynamic sb' (if c = 0 then text else text ++ [c]) := by
  simp only [sgeDstringAppendChar, h.notStatic, Bool.false_eq_true, if_false]
  split_ifs with hc
  · exact ⟨sb, rfl, h⟩
  · obtain ⟨sb', mem, hensure, hmem, hle⟩ :=
      ensure_spec fresh h (Nat.succ_pos (sb.length + 1))
    have hlength := h.length_eq
    obtain ⟨mem₁, mem₂, hwrite₁, hwrite₂, hmem', hlen⟩ := hmem.holds.write_char hc (by omega)
    simp only [hensure, hmem.s_eq, hmem.length_eq, hwrite₁, hwrite₂, Option.bind_eq_bind,
      Option.bind_some]
    have hlength' : text.length + 1 = (text ++ [c]).length := by
      rw [List.length_append, List.length_singleton]
    exact ⟨_, rfl, Or.inr ⟨mem₂, hmem.notStatic, rfl, hmem', hlength', hmem.size_eq.trans hlen.symm⟩⟩

theorem clear_dynamic (h : Dynamic sb text) :
    ∃ sb', sgeDstringClear sb = some sb' ∧ Dynamic sb' [] := by
  rcases h with ⟨rfl, rfl⟩ | ⟨mem, h⟩
  · exact ⟨dstringInit, rfl, Or.inl ⟨rfl, rfl⟩⟩
  · have hne : mem ≠ [] := List.ne_nil_of_length_pos (by have := h.holds.length_lt; omega)
    obtain ⟨mem', hwrite, hmem', hlen⟩ := Holds.write_empty hne
    simp only [sgeDstringClear, h.s_eq, hwrite, Option.map_some]
    exact ⟨_, rfl, Or.inr ⟨mem', h.notStatic, rfl, hmem', rfl, h.size_eq.trans hlen.symm⟩⟩

theorem free_dynamic (h : Dynamic sb text) : sgeDstringFree sb = dstringInit := by
  rcases h with ⟨rfl, rfl⟩ | ⟨mem, h⟩
  · rfl
  · obtain ⟨s, length, size, isStatic⟩ := sb
    obtain rfl : isStatic = false := h.notStatic
    obtain rfl : s = some mem := h.s_eq
    rfl

theorem vsprintf_eq (function : DString → Option (List UInt8) → Option DString) (sb : DString)
    (hlen : a.length ≠ BUFSIZ) :
    sgeDstringVsprintfCopyAppend function sb (some a) = function sb (some a) := by
  simp only [sgeDstringVsprintfCopyAppend, vsnprintf, Nat.add_sub_cancel]
  split_ifs with hlt
  · rw [List.take_length]
  · rw [List.take_of_length_le (by omega)]

theorem append_static (fresh : ℕ → UInt8) (h : Static n sb text) (ha : 0 ∉ a) :
    ∃ sb', sgeDstringAppend fresh sb (some a) = some sb' ∧ Static n sb' (text ++ a) := by
  obtain ⟨mem, hs, hmem, hlen⟩ := h.buffer
  have hlength := h.length_eq
  have hsize := h.size_eq
  have hlt := hmem.length_lt
  have htake := List.length_take (i := n - 1) (l := text)
  simp only [sgeDstringAppend, h.isStatic, if_true]
  obtain ⟨len, hlen'⟩ : ∃ len,
      (if sb.length + a.length > sb.size then sb.size - sb.length else a.length) = len := ⟨_, rfl⟩
  have hle : len ≤ a.length ∧ sb.length + len ≤ sb.size := by
    split_ifs at hlen' <;> omega
  have hcut : (text ++ a).take (n - 1) = text.take (n - 1) ++ a.take len := by
    rw [List.take_append, List.append_cancel_left_eq, List.take_eq_take_iff]
    split_ifs at hlen' <;> omega
  have hcopied : (a.take len).length = len := List.length_take_of_le hle.1
  obtain ⟨mem', hcat, hmem', hlen₂⟩ := hmem.strncat_spec (n := len) ha (by omega)
  rw [← hlength] at hcat
  simp only [hlen', hs, hcat, Option.bind_eq_bind, Option.bind_some]
  refine ⟨_, rfl, rfl, hsize, ?_, mem', rfl, ?_, by omega⟩
  · rw [hcut, List.length_append, hcopied, hlength]
  · rwa [hcut]

theorem appendChar_static (fresh : ℕ → UInt8) (h : Static n sb text) (c : UInt8) :
    ∃ sb', sgeDstringAppendChar fresh sb c = some sb' ∧
      Static n sb' (if c = 0 then text else text ++ [c]) := by
  obtain ⟨mem, hs, hmem, hlen⟩ := h.buffer
  have hlength := h.length_eq
  have hsize := h.size_eq
  have hlt := hmem.length_lt
  have htake := List.length_take (i := n - 1) (l := text)
  simp only [sgeDstringAppendChar, h.isStatic, if_true]
  split_ifs with hc hfull
  · exact ⟨sb, rfl, h⟩
  · have hshort : text.take (n - 1) = text := List.take_of_length_le (by omega)
    have hshort' : (text ++ [c]).take (n - 1) = text ++ [c] := by
      apply List.take_of_length_le
      rw [List.length_append, List.length_singleton]
      omega
    rw [hshort] at hmem hlength
    obtain ⟨mem₁, mem₂, hwrite₁, hwrite₂, hmem', hlen'⟩ := hmem.write_char hc (by omega)
    simp only [hs, hlength, hwrite₁, hwrite₂, Option.bind_eq_bind, Option.bind_some]
    refine ⟨_, rfl, rfl, hsize, ?_, mem₂, rfl, ?_, by omega⟩
    · rw [hshort', List.length_append, List.length_singleton]
    · rwa [hshort']
  · have hcut : (text ++ [c]).take (n - 1) = text.take (n - 1) :=
      List.take_append_of_le_length (by omega)
    refine ⟨sb, rfl, h.isStatic, hsize, ?_, mem, hs, ?_, hlen⟩
    · rw [hcut, hlength]
    · rwa [hcut]

theorem clear_static (h : Static n sb text) :
    ∃ sb', sgeDstringClear sb = some sb' ∧ Static n sb' [] := by
  obtain ⟨mem, hs, hmem, hlen⟩ := h.buffer
  have hne : mem ≠ [] := List.ne_nil_of_length_pos (by have := hmem.length_lt; omega)
  obtain ⟨mem', hwrite, hmem', hlen'⟩ := Holds.write_empty hne
  simp only [sgeDstringClear, hs, hwrite, Option.map_some]
  refine ⟨_, rfl, h.isStatic, h.size_eq, ?_, mem', rfl, ?_, by omega⟩
  · rw [List.take_nil, List.length_nil]
  · rwa [List.take_nil]

theorem free_static (h : Static n sb text) : sgeDstringFree sb = sb := by
  simp only [sgeDstringFree, h.isStatic, Bool.not_true, Bool.false_and, Bool.false_eq_true,
    if_false]

theorem init_static {buffer : List UInt8} (hne : buffer ≠ []) :
    ∃ sb, sgeDstringInit buffer = some sb ∧ Static buffer.length sb [] := by
  obtain ⟨mem, hwrite, hmem, hlen⟩ := Holds.write_empty hne
  simp only [sgeDstringInit, hwrite, Option.bind_eq_bind, Option.bind_some]
  refine ⟨_, rfl, rfl, by rw [hlen], ?_, mem, rfl, ?_, hlen⟩
  · rw [List.take_nil, List.length_nil]
  · rwa [List.take_nil]

end Spec

section Run
variable {sb : DString} {text : List UInt8} {n : ℕ} {frees : Bool}
  {R : DString → List UInt8 → Prop}

/-- `R` says which text a string is, and every basic operation does to it what it should. -/
structure Tracks (R : DString → List UInt8 → Prop) (frees : Bool) : Prop where
  append : ∀ (fresh : ℕ → UInt8) {sb : DString} {text a : List UInt8}, R sb text → 0 ∉ a →
    ∃ sb', sgeDstringAppend fresh sb (some a) = some sb' ∧ R sb' (text ++ a)
  appendChar : ∀ (fresh : ℕ → UInt8) {sb : DString} {text : List UInt8}, R sb text → ∀ c,
    ∃ sb', sgeDstringAppendChar fresh sb c = some sb' ∧ R sb' (if c = 0 then text else text ++ [c])
  clear : ∀ {sb : DString} {text : List UInt8}, R sb text →
    ∃ sb', sgeDstringClear sb = some sb' ∧ R sb' []
  free : ∀ {sb : DString} {text : List UInt8}, R sb text →
    R (sgeDstringFree sb) (if frees then [] else text)

theorem Tracks.append_opt (ht : Tracks R frees) (fresh : ℕ → UInt8) (h : R sb text)
    (a : Option CString) : ∃ sb', sgeDstringAppend fresh sb (a.map CString.bytes) = some sb' ∧
      R sb' (text ++ bytes a) := by
  cases a with
  | none => exact ⟨sb, rfl, by rwa [bytes, Option.map_none, Option.getD_none, List.append_nil]⟩
  | some a => exact ht.append fresh h a.no_nul

theorem Tracks.copyString (ht : Tracks R frees) (fresh : ℕ → UInt8) (h : R sb text)
    (str : Option CString) :
    ∃ sb', sgeDstringCopyString fresh sb (str.map CString.bytes) = some sb' ∧ R sb' (bytes str) := by
  obtain ⟨sb₁, hclear, h₁⟩ := ht.clear h
  rw [sgeDstringCopyString, hclear]
  exact ht.append_opt fresh h₁ str

theorem tracks_dynamic : Tracks Dynamic true where
  append fresh := append_dynamic fresh
  appendChar fresh := appendChar_dynamic fresh
  clear := clear_dynamic
  free h := Or.inl ⟨free_dynamic h, rfl⟩

/-- Only a dynamic string is freed. -/
theorem tracks_static (n : ℕ) : Tracks (Static n) false where
  append fresh := append_static fresh
  appendChar fresh := appendChar_static fresh
  clear := clear_static
  free h := by
    rw [free_static h]
    exact h

theorem Tracks.step (ht : Tracks R frees) (h : R sb text) (call : (ℕ → UInt8) × Op)
    (hfits : call.2.Fits) :
    ∃ sb', step sb call = some sb' ∧ R sb' (textAfter frees text call.2) := by
  obtain ⟨fresh, op⟩ := call
  cases op with
  | append a => exact ht.append_opt fresh h a
  | appendChar c => exact ht.appendChar fresh h c
  | sprintfAppend a =>
      cases a with
      | none =>
          refine ⟨sb, rfl, ?_⟩
          rwa [textAfter, bytes, Option.map_none, Option.getD_none, List.append_nil]
      | some a =>
          obtain ⟨sb', happend, h'⟩ := ht.append fresh h a.no_nul
          exact ⟨sb', (vsprintf_eq (sgeDstringAppend fresh) sb hfits).trans happend, h'⟩
  | sprintf a =>
      cases a with
      | none => exact ⟨sb, rfl, h⟩
      | some a =>
          obtain ⟨sb', hcopy, h'⟩ := ht.copyString fresh h (some a)
          exact ⟨sb', (vsprintf_eq (sgeDstringCopyString fresh) sb hfits).trans hcopy, h'⟩
  | copyString str => exact ht.copyString fresh h str
  | clear => exact ht.clear h
  | free => exact ⟨_, rfl, ht.free h⟩

theorem Tracks.run (ht : Tracks R frees) (h : R sb text) (calls : List ((ℕ → UInt8) × Op))
    (hfits : ∀ call ∈ calls, call.2.Fits) :
    ∃ sb', run sb calls = some sb' ∧ R sb' ((calls.map Prod.snd).foldl (textAfter frees) text) := by
  induction calls generalizing sb text with
  | nil => exact ⟨sb, rfl, h⟩
  | cons call calls ih =>
      obtain ⟨sb₁, hstep, h₁⟩ := ht.step h call (hfits call List.mem_cons_self)
      obtain ⟨sb', hrun, h'⟩ := ih h₁ fun call hcall => hfits call (List.mem_cons_of_mem _ hcall)
      refine ⟨sb', ?_, h'⟩
      rw [Dstring.run, List.foldlM_cons, hstep]
      exact hrun

theorem Allocated.length_lt {mem : List UInt8} (h : Allocated sb mem text) :
    sb.length < sb.size := by
  rw [h.length_eq, h.size_eq]
  exact h.holds.length_lt

/-- What a string is after any calls whose formatted texts do not have exactly `BUFSIZ` bytes. -/
theorem dstring_exact (calls : List ((ℕ → UInt8) × Op)) (hfits : ∀ call ∈ calls, call.2.Fits) :
    (∃ sb, run dstringInit calls = some sb ∧
      (sb = dstringInit ∧ textOf true (calls.map Prod.snd) = [] ∨
        ∃ mem, sb.s = some mem ∧ mem.length = sb.size ∧
          contents mem = some (textOf true (calls.map Prod.snd)) ∧
          sb.length = (textOf true (calls.map Prod.snd)).length ∧ sb.length < sb.size)) ∧
      ∀ buffer : List UInt8, buffer ≠ [] →
        ∃ sb mem, (sgeDstringInit buffer).bind (run · calls) = some sb ∧ sb.s = some mem ∧
          mem.length = buffer.length ∧
          contents mem = some ((textOf false (calls.map Prod.snd)).take (buffer.length - 1)) ∧
          sb.length = ((textOf false (calls.map Prod.snd)).take (buffer.length - 1)).length := by
  constructor
  · obtain ⟨sb, hrun, h⟩ := tracks_dynamic.run (Or.inl ⟨rfl, rfl⟩) calls hfits
    refine ⟨sb, hrun, h.imp_right ?_⟩
    rintro ⟨mem, h⟩
    exact ⟨mem, h.s_eq, h.size_eq.symm, h.holds.contents_eq, h.length_eq, h.length_lt⟩
  · intro buffer hne
    obtain ⟨sb₀, hinit, h₀⟩ := init_static hne
    obtain ⟨sb, hrun, h⟩ := (tracks_static buffer.length).run h₀ calls hfits
    obtain ⟨mem, hs, hmem, hlen⟩ := h.buffer
    rw [hinit, Option.bind_some]
    exact ⟨sb, mem, hrun, hs, hlen, hmem.contents_eq, h.length_eq⟩

def letter : CString := ⟨[97], by decide⟩

/-- A letter is appended and the string is freed. -/
def appendFree : List ((ℕ → UInt8) × Op) :=
  [(fun _ => 7, .append (some letter)), (fun _ => 7, .free)]

theorem appendFree_exact :
    (∃ sb, run dstringInit appendFree = some sb ∧
      (sb = dstringInit ∧ textOf true (appendFree.map Prod.snd) = [] ∨
        ∃ mem, sb.s = some mem ∧ mem.length = sb.size ∧
          contents mem = some (textOf true (appendFree.map Prod.snd)) ∧
          sb.length = (textOf true (appendFree.map Prod.snd)).length ∧ sb.length < sb.size)) ∧
      ∀ buffer : List UInt8, buffer ≠ [] →
        ∃ sb mem, (sgeDstringInit buffer).bind (run · appendFree) = some sb ∧ sb.s = some mem ∧
          mem.length = buffer.length ∧
          contents mem = some ((textOf false (appendFree.map Prod.snd)).take (buffer.length - 1)) ∧
          sb.length = ((textOf false (appendFree.map Prod.snd)).take (buffer.length - 1)).length :=
  dstring_exact appendFree (by
    intro call hcall
    simp only [appendFree, List.mem_cons, List.not_mem_nil, or_false] at hcall
    rcases hcall with rfl | rfl <;> trivial)

/-- A static string still has its text after `free`, and a freed dynamic one has no size. -/
theorem free_keeps_static :
    (¬ ∀ (calls : List ((ℕ → UInt8) × Op)) (buffer : List UInt8), buffer ≠ [] →
      ∃ sb mem, (sgeDstringInit buffer).bind (run · calls) = some sb ∧ sb.s = some mem ∧
        contents mem = some ((textOf true (calls.map Prod.snd)).take (buffer.length - 1))) ∧
      ¬ ∀ calls : List ((ℕ → UInt8) × Op), ∃ sb, run dstringInit calls = some sb ∧
        sb.length < sb.size := by
  constructor
  · intro h
    obtain ⟨sb, mem, hrun, hs, hcontents⟩ := h appendFree [7, 7, 7] (List.cons_ne_nil _ _)
    have hrun' : (sgeDstringInit [7, 7, 7]).bind (run · appendFree) =
        some ⟨some [97, 0, 7], 1, 2, true⟩ := by
      decide
    obtain rfl := Option.some.inj (hrun'.symm.trans hrun)
    obtain rfl := Option.some.inj hs
    revert hcontents
    decide
  · intro h
    obtain ⟨sb, hrun, hlt⟩ := h []
    obtain rfl := Option.some.inj hrun
    exact absurd hlt (Nat.lt_irrefl 0)

end Run

end GridEngine.Dstring
