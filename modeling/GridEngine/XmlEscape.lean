import GridEngine.TagScan

/-!
# Escape sequences in message texts

`cl_com_transformString2XML` replaces the characters that have a meaning in a message, and
`cl_com_transformXML2String` puts them back. The memory of the escaped text is grown on the way,
once for each character that does not fit.
-/

namespace GridEngine

/-- `cl_com_sequence_array`. -/
def clComSequenceArray : List (Char × List Char) :=
  [('\n', "&#x0D;".toList), ('\r', "&#x0A;".toList), ('\t', "&#x09;".toList),
    ('&', "&amp;".toList), ('<', "&lt;".toList), ('>', "&gt;".toList), ('"', "&quot;".toList),
    ('\'', "&apos;".toList)]

/-- What one character becomes. -/
def escapeChar (c : Char) : List Char :=
  match clComSequenceArray.find? (fun s => s.1 = c) with
  | some s => s.2
  | none => [c]

/-- The loop of `cl_com_transformString2XML` and the terminator behind it. The memory has one byte
more than `mallocedSize`, and `none` means a write behind it. -/
def escapeInto : List Char → List Char → ℕ → Option (List Char)
  | [], output, mallocedSize => if output.length ≤ mallocedSize then some output else none
  | c :: input, output, mallocedSize =>
      let added := escapeChar c
      let mallocedSize :=
        if mallocedSize ≤ output.length + added.length then mallocedSize + mallocedSize
        else mallocedSize
      if output.length + added.length ≤ mallocedSize + 1 then
        escapeInto input (output ++ added) mallocedSize
      else none

/-- `cl_com_transformString2XML`. -/
def clComTransformString2XML (input : List Char) : Option (List Char) :=
  escapeInto input [] (input.length * 2)

/-- `cl_com_transformXML2String`. An ampersand that begins no sequence is left out. -/
def clComTransformXML2String : List Char → List Char
  | [] => []
  | c :: rest =>
      if c = '&' then
        match clComSequenceArray.find? (fun s => s.2.isPrefixOf (c :: rest)) with
        | some s => s.1 :: clComTransformXML2String (rest.drop (s.2.length - 1))
        | none => clComTransformXML2String rest
      else c :: clComTransformXML2String rest
termination_by input => input.length
decreasing_by
  · simp only [List.length_drop, List.length_cons]
    omega
  · simp
  · simp

/-- The one character of a text has an escape sequence that does not fit into the memory. -/
def EscapeOverflows (s : List Char) : Prop := s.length = 1 ∧ 5 ≤ (s.flatMap escapeChar).length

instance : DecidablePred EscapeOverflows := fun s => by
  unfold EscapeOverflows
  infer_instance

section Escape
variable {c : Char} {s rest output : List Char} {m : ℕ}

theorem escapeChar_cases : ((c, escapeChar c) ∈ clComSequenceArray) ∨
    (escapeChar c = [c] ∧ ∀ s ∈ clComSequenceArray, s.1 ≠ c) := by
  cases h : clComSequenceArray.find? (fun s => s.1 = c) with
  | some s =>
      left
      have hmem := List.mem_of_find?_eq_some h
      have heq : s.1 = c := by simpa using List.find?_some h
      have hc : escapeChar c = s.2 := by rw [escapeChar, h]
      rw [hc, ← heq]
      exact hmem
  | none =>
      right
      refine ⟨by rw [escapeChar, h], fun s hs => ?_⟩
      simpa using List.find?_eq_none.mp h s hs

theorem escapeChar_length : (escapeChar c).length = 1 ∨
    4 ≤ (escapeChar c).length ∧ (escapeChar c).length ≤ 6 := by
  rcases @escapeChar_cases c with hmem | ⟨heq, -⟩
  · right
    revert hmem
    generalize escapeChar c = seq
    intro hmem
    have hall : ∀ s ∈ clComSequenceArray, 4 ≤ s.2.length ∧ s.2.length ≤ 6 := by decide
    exact hall _ hmem
  · rw [heq]
    exact Or.inl rfl

theorem escapeChar_ne (hc : c ≠ '\x00') :
    ∀ x ∈ escapeChar c, x ≠ '<' ∧ x ≠ '>' ∧ x ≠ '\x00' := by
  rcases @escapeChar_cases c with hmem | ⟨heq, hnone⟩
  · have hall : ∀ s ∈ clComSequenceArray,
        (s.2.all fun x => x ≠ '<' ∧ x ≠ '>' ∧ x ≠ '\x00') = true := by decide
    exact forall_chars (hall _ hmem)
  · rw [heq]
    intro x hx
    rw [List.mem_singleton.mp hx]
    have hlt := hnone ('<', "&lt;".toList) (by decide)
    have hgt := hnone ('>', "&gt;".toList) (by decide)
    exact ⟨hlt.symm, hgt.symm, hc⟩

theorem escapeInto_cons (hm : output.length + (escapeChar c).length < m) :
    escapeInto (c :: s) output m = escapeInto s (output ++ escapeChar c) m := by
  have hnot : ¬ m ≤ output.length + (escapeChar c).length := by omega
  rw [escapeInto]
  simp only [if_neg hnot]
  rw [if_pos (by omega)]

theorem escapeInto_grow (hm : m ≤ output.length + (escapeChar c).length)
    (hfits : output.length + (escapeChar c).length ≤ m + m + 1) :
    escapeInto (c :: s) output m = escapeInto s (output ++ escapeChar c) (m + m) := by
  rw [escapeInto]
  simp only [if_pos hm]
  rw [if_pos hfits]

theorem escapeInto_of_le (hm : 6 ≤ m) (hout : output.length ≤ m) :
    escapeInto s output m = some (output ++ s.flatMap escapeChar) := by
  induction s generalizing output m with
  | nil => rw [escapeInto, if_pos hout, List.flatMap_nil, List.append_nil]
  | cons c s ih =>
      have hlen : (escapeChar c).length ≤ 6 := by
        rcases @escapeChar_length c with h | h <;> omega
      have hsum : (output ++ escapeChar c).length = output.length + (escapeChar c).length :=
        List.length_append
      rw [List.flatMap_cons, ← List.append_assoc]
      by_cases hfull : m ≤ output.length + (escapeChar c).length
      · rw [escapeInto_grow hfull (by omega)]
        exact ih (by omega) (by omega)
      · rw [escapeInto_cons (by omega)]
        exact ih hm (by omega)

theorem escapeInto_two {d : Char} :
    escapeInto [c, d] [] 4 = some (escapeChar c ++ escapeChar d) := by
  have hsum : (escapeChar c ++ escapeChar d).length =
      (escapeChar c).length + (escapeChar d).length := List.length_append
  rcases @escapeChar_length c with hc | hc
  · rw [escapeInto_cons (by simp [hc]), List.nil_append]
    rcases @escapeChar_length d with hd | hd
    · rw [escapeInto_cons (by omega), escapeInto, if_pos (by omega)]
    · rw [escapeInto_grow (by omega) (by omega), escapeInto, if_pos (by omega)]
  · rw [escapeInto_grow (by simp [hc]) (by simp; omega), escapeInto_of_le (by omega) (by simp; omega)]
    simp

/-- `cl_com_transformString2XML` writes behind its memory for one kind of text only. -/
theorem clComTransformString2XML_eq : clComTransformString2XML s =
    if EscapeOverflows s then none else some (s.flatMap escapeChar) := by
  unfold clComTransformString2XML
  rcases s with _ | ⟨c, _ | ⟨d, _ | ⟨e, s⟩⟩⟩
  · rfl
  · -- the memory of a single character is grown from two to four
    have hlen := @escapeChar_length c
    have hiff : EscapeOverflows [c] ↔ 5 ≤ (escapeChar c).length := by simp [EscapeOverflows]
    by_cases hover : EscapeOverflows [c]
    · rw [if_pos hover]
      have hfive := hiff.mp hover
      simp only [List.length_cons, List.length_nil, escapeInto, List.nil_append, zero_add, one_mul]
      split_ifs <;> first | omega | rfl
    · rw [if_neg hover]
      have hfive : ¬ 5 ≤ (escapeChar c).length := fun h => hover (hiff.mpr h)
      simp only [List.length_cons, List.length_nil, escapeInto, List.nil_append, zero_add, one_mul,
        List.flatMap_cons, List.flatMap_nil, List.append_nil]
      split_ifs <;> first | omega | rfl
  · have hnot : ¬ EscapeOverflows [c, d] := by simp [EscapeOverflows]
    rw [if_neg hnot]
    simpa using @escapeInto_two c d
  · have hnot : ¬ EscapeOverflows (c :: d :: e :: s) := by simp [EscapeOverflows]
    rw [if_neg hnot, escapeInto_of_le (by simp only [List.length_cons]; omega) (by simp),
      List.nil_append]

theorem find?_sequence {entry : Char × List Char} (hentry : entry ∈ clComSequenceArray) :
    clComSequenceArray.find? (fun s => s.2.isPrefixOf (entry.2 ++ rest)) = some entry := by
  simp only [clComSequenceArray, List.mem_cons, List.not_mem_nil, or_false] at hentry
  rcases hentry with rfl | rfl | rfl | rfl | rfl | rfl | rfl | rfl <;> rfl

theorem clComTransformXML2String_sequence {entry : Char × List Char}
    (hentry : entry ∈ clComSequenceArray) :
    clComTransformXML2String (entry.2 ++ rest) = entry.1 :: clComTransformXML2String rest := by
  have hhead : ∀ s ∈ clComSequenceArray, s.2.head? = some '&' := by decide
  have hamp := hhead entry hentry
  have hfind := @find?_sequence rest entry hentry
  cases hseq : entry.2 with
  | nil =>
      rw [hseq] at hamp
      exact absurd hamp (by simp)
  | cons c seq =>
      have hc : c = '&' := by simpa [hseq] using hamp
      rw [hseq, List.cons_append] at hfind
      rw [List.cons_append, clComTransformXML2String, if_pos hc, hfind]
      simp only [hseq, List.length_cons, Nat.add_sub_cancel, List.drop_left]

theorem clComTransformXML2String_escapeChar :
    clComTransformXML2String (escapeChar c ++ rest) = c :: clComTransformXML2String rest := by
  rcases @escapeChar_cases c with hmem | ⟨heq, hnone⟩
  · exact clComTransformXML2String_sequence hmem
  · have hamp : c ≠ '&' := (hnone ('&', "&amp;".toList) (by decide)).symm
    rw [heq, List.singleton_append, clComTransformXML2String, if_neg hamp]

theorem clComTransformXML2String_escape :
    clComTransformXML2String (s.flatMap escapeChar) = s := by
  induction s with
  | nil => rw [List.flatMap_nil, clComTransformXML2String]
  | cons c s ih => rw [List.flatMap_cons, clComTransformXML2String_escapeChar, ih]

end Escape

end GridEngine

/-!
## Sizes of escaped texts

The sizes of the memory of an escaped text are signed 32-bit integers. With them
`cl_com_transformString2XML` fails for two kinds of texts: the ones of one character whose sequence
has five or six, and the ones whose memory would be too large for an `int`.
-/

namespace GridEngine

/-- The sum of two `int`s, which has no value from `2 ^ 31` on. -/
def intAdd (a b : ℕ) : Option ℕ := if a + b < 2 ^ 31 then some (a + b) else none

/-- The double of a size, when it and the terminator behind it are `int`s. -/
def doubleSize (size : ℕ) : Option ℕ :=
  (intAdd size size).bind fun doubled => (intAdd doubled 1).map fun _ => doubled

/-- The loop of `cl_com_transformString2XML` with its sizes. -/
def escapeIntoSized : List Char → List Char → ℕ → Option (List Char)
  | [], output, mallocedSize => if output.length ≤ mallocedSize then some output else none
  | c :: input, output, mallocedSize =>
      let added := escapeChar c
      (intAdd output.length added.length).bind fun needed =>
        (if mallocedSize ≤ needed then doubleSize mallocedSize else some mallocedSize).bind
          fun mallocedSize =>
            if needed ≤ mallocedSize + 1 then
              escapeIntoSized input (output ++ added) mallocedSize
            else none

/-- `cl_com_transformString2XML` with its sizes. `none` means a write behind the memory, or a size
that is no `int`. -/
def clComTransformString2XMLSized (input : List Char) : Option (List Char) :=
  (doubleSize input.length).bind (escapeIntoSized input [])

/-- The memory that a text of this length needs in the end, when there are `size` bytes now. -/
def sizeFor (size length : ℕ) : ℕ :=
  if length < size then size else if length < 2 * size then 2 * size else 4 * size

/-- The memory for the escaped text. -/
def escapedSize (s : List Char) : ℕ := sizeFor (2 * s.length) (s.flatMap escapeChar).length

/-- The text is escaped without a character that has a meaning in a message, every ampersand begins
a sequence, and the text is read back. -/
structure EscapesLosslessly (s : List Char) (result : Option (List Char)) : Prop where
  lossless : ∃ output, result = some output ∧
    (∀ x ∈ output, x ∉ ['<', '>', '"', '\'', '\n', '\r', '\t']) ∧
    (∀ before behind, output = before ++ '&' :: behind →
      ∃ entry ∈ clComSequenceArray, entry.2 <+: '&' :: behind) ∧
    clComTransformXML2String output = s

section Sizes
variable {c : Char} {s output : List Char} {m : ℕ}

theorem doubleSize_eq : doubleSize m = if m + m + 1 < 2 ^ 31 then some (m + m) else none := by
  rw [doubleSize, intAdd]
  split_ifs with hsum hone
  · rw [Option.bind_some, intAdd, if_pos hone, Option.map_some]
  · rw [Option.bind_some, intAdd, if_neg hone, Option.map_none]
  · omega
  · rfl

/-- With memory for a sequence the text fits unless its memory does not fit into an `int`. -/
theorem escapeIntoSized_of_le (hm : 6 ≤ m) (hout : output.length < m) (hint : m + 1 < 2 ^ 31)
    (hlen : output.length + (s.flatMap escapeChar).length < 4 * m) :
    escapeIntoSized s output m =
      if sizeFor m (output.length + (s.flatMap escapeChar).length) + 1 < 2 ^ 31 then
        some (output ++ s.flatMap escapeChar) else none := by
  induction s generalizing output m with
  | nil =>
      have hsize : sizeFor m (output.length + ([].flatMap escapeChar).length) = m := if_pos hout
      rw [hsize, if_pos hint, List.flatMap_nil, List.append_nil, escapeIntoSized, if_pos hout.le]
  | cons c s ih =>
      have hsix : (escapeChar c).length ≤ 6 := by
        rcases @escapeChar_length c with h | h <;> omega
      have hsum : (output ++ escapeChar c).length = output.length + (escapeChar c).length :=
        List.length_append
      have htotal : output.length + ((c :: s).flatMap escapeChar).length =
          (output ++ escapeChar c).length + (s.flatMap escapeChar).length := by
        rw [List.flatMap_cons, List.length_append, List.length_append]
        omega
      have htext : output ++ (c :: s).flatMap escapeChar =
          output ++ escapeChar c ++ s.flatMap escapeChar := by
        rw [List.flatMap_cons, List.append_assoc]
      rw [htotal] at hlen
      rw [htotal, htext]
      simp only [escapeIntoSized]
      rw [intAdd]
      by_cases hgrow : m ≤ output.length + (escapeChar c).length
      · have hsize : sizeFor m ((output ++ escapeChar c).length + (s.flatMap escapeChar).length) =
            sizeFor (m + m) ((output ++ escapeChar c).length + (s.flatMap escapeChar).length) := by
          unfold sizeFor
          split_ifs <;> omega
        rw [hsize]
        by_cases hint' : m + m + 1 < 2 ^ 31
        · rw [if_pos (by omega), Option.bind_some, if_pos hgrow, doubleSize_eq, if_pos hint',
            Option.bind_some, if_pos (by omega)]
          exact ih (by omega) (by omega) hint' (by omega)
        · have hbig : ¬ sizeFor (m + m)
              ((output ++ escapeChar c).length + (s.flatMap escapeChar).length) + 1 < 2 ^ 31 := by
            unfold sizeFor
            split_ifs <;> omega
          rw [if_neg hbig]
          by_cases hneeded : output.length + (escapeChar c).length < 2 ^ 31
          · rw [if_pos hneeded, Option.bind_some, if_pos hgrow, doubleSize_eq, if_neg hint',
              Option.bind_none]
          · rw [if_neg hneeded, Option.bind_none]
      · rw [if_pos (by omega), Option.bind_some, if_neg hgrow, Option.bind_some, if_pos (by omega)]
        exact ih hm (by omega) hint hlen

theorem escapeIntoSized_eq (hint : m * 2 ^ s.length + 1 < 2 ^ 31)
    (hlen : output.length + (s.flatMap escapeChar).length < 2 ^ 31) :
    escapeIntoSized s output m = escapeInto s output m := by
  induction s generalizing output m with
  | nil => rfl
  | cons c s ih =>
      have htotal : output.length + ((c :: s).flatMap escapeChar).length =
          (output ++ escapeChar c).length + (s.flatMap escapeChar).length := by
        rw [List.flatMap_cons, List.length_append, List.length_append]
        omega
      have hsum : (output ++ escapeChar c).length = output.length + (escapeChar c).length :=
        List.length_append
      have hpow : (m + m) * 2 ^ s.length = m * 2 ^ (c :: s).length := by
        rw [List.length_cons, pow_succ]
        ring
      have hone : m ≤ m * 2 ^ s.length := Nat.le_mul_of_pos_right m (by positivity)
      have htwo : m + m ≤ (m + m) * 2 ^ s.length := Nat.le_mul_of_pos_right _ (by positivity)
      rw [htotal] at hlen
      simp only [escapeIntoSized, escapeInto]
      rw [intAdd, if_pos (by omega), Option.bind_some]
      by_cases hgrow : m ≤ output.length + (escapeChar c).length
      · rw [if_pos hgrow, doubleSize_eq, if_pos (by omega), Option.bind_some, if_pos hgrow,
          ih (by omega) hlen]
      · have hle : m * 2 ^ s.length ≤ (m + m) * 2 ^ s.length := Nat.mul_le_mul_right _ (by omega)
        rw [if_neg hgrow, Option.bind_some, if_neg hgrow, ih (by omega) hlen]

theorem length_flatMap_le : s.length ≤ (s.flatMap escapeChar).length ∧
    (s.flatMap escapeChar).length ≤ 6 * s.length := by
  induction s with
  | nil => simp
  | cons c s ih =>
      rw [List.flatMap_cons, List.length_append, List.length_cons]
      rcases @escapeChar_length c with h | h <;> omega

/-- `cl_com_transformString2XML` fails for these two kinds of texts only. -/
theorem clComTransformString2XMLSized_eq : clComTransformString2XMLSized s =
    if EscapeOverflows s ∨ 2 ^ 31 ≤ escapedSize s + 1 then none
    else some (s.flatMap escapeChar) := by
  have hlen := @length_flatMap_le s
  have hsize : 2 * s.length ≤ escapedSize s ∧ escapedSize s ≤ 8 * s.length := by
    unfold escapedSize sizeFor
    split_ifs <;> omega
  rw [clComTransformString2XMLSized, doubleSize_eq]
  by_cases hshort : s.length ≤ 2
  · have hpow : (s.length + s.length) * 2 ^ s.length ≤ 16 := by
      obtain h | h | h : s.length = 0 ∨ s.length = 1 ∨ s.length = 2 := by omega
      all_goals
        rw [h]
        decide
    have hint : ¬ 2 ^ 31 ≤ escapedSize s + 1 := by omega
    rw [if_pos (by omega), Option.bind_some, escapeIntoSized_eq (by omega)
        (by rw [List.length_nil]; omega), ← mul_two]
    simp only [hint, or_false]
    exact clComTransformString2XML_eq
  · have hnot : ¬ EscapeOverflows s := by
      rintro ⟨hone, -⟩
      omega
    simp only [hnot, false_or]
    by_cases hint : s.length + s.length + 1 < 2 ^ 31
    · rw [if_pos hint, Option.bind_some, escapeIntoSized_of_le (by omega)
        (by rw [List.length_nil]; omega) hint (by rw [List.length_nil]; omega), List.length_nil,
        Nat.zero_add, List.nil_append, ← two_mul]
      change (if escapedSize s + 1 < 2 ^ 31 then _ else _) = _
      by_cases hfits : escapedSize s + 1 < 2 ^ 31
      · rw [if_pos hfits, if_neg (not_le.mpr hfits)]
      · rw [if_neg hfits, if_pos (not_lt.mp hfits)]
    · rw [if_neg hint, Option.bind_none, if_pos (by omega)]

end Sizes

section Output
variable {c : Char} {s : List Char}

theorem escapeChar_special (x : Char) (hx : x ∈ escapeChar c) :
    x ∉ ['<', '>', '"', '\'', '\n', '\r', '\t'] := by
  rcases @escapeChar_cases c with hmem | ⟨heq, hnone⟩
  · have hall : ∀ entry ∈ clComSequenceArray,
        (entry.2.all fun x => x ∉ ['<', '>', '"', '\'', '\n', '\r', '\t']) = true := by decide
    exact of_decide_eq_true (List.all_eq_true.mp (hall _ hmem) x hx)
  · rw [heq, List.mem_singleton] at hx
    subst hx
    intro hspecial
    have hentry : ∀ y ∈ ['<', '>', '"', '\'', '\n', '\r', '\t'],
        ∃ entry ∈ clComSequenceArray, entry.1 = y := forall_chars (by decide)
    obtain ⟨entry, hmem, hy⟩ := hentry x hspecial
    exact hnone entry hmem hy

theorem escapeChar_ampersand {before behind : List Char}
    (h : escapeChar c = before ++ '&' :: behind) :
    before = [] ∧ escapeChar c ∈ clComSequenceArray.map Prod.snd := by
  rcases @escapeChar_cases c with hmem | ⟨heq, hnone⟩
  · refine ⟨?_, List.mem_map_of_mem hmem⟩
    have hall : ∀ entry ∈ clComSequenceArray, '&' ∉ entry.2.tail := by decide
    have htail := hall _ hmem
    cases before with
    | nil => rfl
    | cons x before =>
        rw [h] at htail
        exact absurd (by simp) htail
  · rw [heq] at h
    cases before with
    | nil =>
        rw [List.nil_append, List.cons.injEq] at h
        exact absurd h.1.symm (hnone ('&', "&amp;".toList) (by decide))
    | cons x before => simp at h

theorem flatMap_ampersand {before behind : List Char}
    (h : s.flatMap escapeChar = before ++ '&' :: behind) :
    ∃ entry ∈ clComSequenceArray, entry.2 <+: '&' :: behind := by
  induction s generalizing before with
  | nil => simp at h
  | cons c s ih =>
      rw [List.flatMap_cons, List.append_eq_append_iff] at h
      rcases h with ⟨middle, rfl, hrest⟩ | ⟨middle, hseq, hrest⟩
      · exact ih hrest
      · cases middle with
        | nil =>
            rw [List.nil_append] at hrest
            have hnil : s.flatMap escapeChar = [] ++ '&' :: behind := hrest.symm
            exact ih hnil
        | cons x middle =>
            rw [List.cons_append, List.cons.injEq] at hrest
            obtain ⟨rfl, rfl⟩ := hrest
            obtain ⟨rfl, hmem⟩ := escapeChar_ampersand hseq
            obtain ⟨entry, hentry, heq⟩ := List.mem_map.mp hmem
            refine ⟨entry, hentry, ?_⟩
            rw [heq, hseq, List.nil_append, ← List.cons_append]
            exact List.prefix_append _ _

/-- Escaping is lossless exactly when the text is not a single character with a long sequence and
its memory fits into an `int`. -/
theorem clComTransformString2XML_lossless_iff :
    EscapesLosslessly s (clComTransformString2XMLSized s) ↔
      ¬ EscapeOverflows s ∧ escapedSize s + 1 < 2 ^ 31 := by
  rw [clComTransformString2XMLSized_eq, ← not_le, ← not_or]
  constructor
  · rintro ⟨output, hsome, -⟩ hfails
    rw [if_pos hfails] at hsome
    cases hsome
  · intro hfits
    rw [if_neg hfits]
    refine ⟨_, rfl, fun x hx => ?_, fun before behind => flatMap_ampersand,
      clComTransformXML2String_escape⟩
    obtain ⟨c, -, hx⟩ := List.mem_flatMap.mp hx
    exact escapeChar_special x hx

/-- A single ampersand becomes five characters and a terminator in memory for five. -/
theorem clComTransformString2XML_ampersand : ¬ ∀ s : List Char, '\x00' ∉ s →
    EscapesLosslessly s (clComTransformString2XMLSized s) := by
  intro h
  obtain ⟨output, hsome, -⟩ := h ['&'] (by decide)
  have hnone : clComTransformString2XMLSized ['&'] = none := by decide
  rw [hnone] at hsome
  cases hsome

end Output

end GridEngine
