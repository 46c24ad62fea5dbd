import GridEngine.HostileScan

/-!
# Hostile message headers

Which buffers make a parser of a message leave them. Behind the scan, the position of the version
lies behind the buffer when the sign is one of its last two characters, and the end of a value does
when its closing tag stands so close to the beginning that the difference wraps around.
-/

namespace GridEngine.CheckedBuffer

theorem not_exists_none_eq {β : Type} : ¬ ∃ r : β, (none : Option β) = some r := by simp

section Reads
variable {buffer text helpBuf : List Char} {start fin versionBegin i n : ℕ} {inQuotes : Bool}

theorem exists_stringAt (h : '\x00' ∈ text) : ∃ v, stringAt text = some v := by
  induction text with
  | nil => exact absurd h List.not_mem_nil
  | cons c text ih =>
      rw [stringAt]
      by_cases hc : c = '\x00'
      · exact ⟨[], if_pos hc⟩
      · obtain ⟨v, hv⟩ := ih ((List.mem_cons.mp h).resolve_left (Ne.symm hc))
        exact ⟨c :: v, by rw [if_neg hc, hv, Option.map_some]⟩

theorem exists_beforeQuote (h : '\x00' ∈ text) : ∃ v, beforeQuote text = some v := by
  induction text with
  | nil => exact absurd h List.not_mem_nil
  | cons c text ih =>
      rw [beforeQuote]
      by_cases hquote : c = '"'
      · exact ⟨some [], if_pos hquote⟩
      · rw [if_neg hquote]
        by_cases hc : c = '\x00'
        · exact ⟨none, if_pos hc⟩
        · obtain ⟨v, hv⟩ := ih ((List.mem_cons.mp h).resolve_left (Ne.symm hc))
          exact ⟨v.map (c :: ·), by rw [if_neg hc, hv, Option.map_some]⟩

theorem exists_clXmlParseVersion (hlen : buffer.length < 2 ^ 64)
    (hin : versionBegin < buffer.length) (hpos : 0 < versionBegin) :
    ∃ v, clXmlParseVersion buffer versionBegin =
      some (v, buffer.set (buffer.length - 1) '\x00') := by
  have hindex : versionBegin + wordSub (wordSub buffer.length versionBegin) 1 =
      buffer.length - 1 := by
    rw [@wordSub_eq buffer.length versionBegin hin.le hlen, wordSub_eq (by omega) (by omega)]
    omega
  have hset : setNull buffer (buffer.length - 1) =
      some (buffer.set (buffer.length - 1) '\x00') := if_pos (by omega)
  have hlast : (buffer.set (buffer.length - 1) '\x00')[buffer.length - 1]? = some '\x00' := by
    rw [List.getElem?_set_self (by omega)]
  obtain ⟨v, hv⟩ := exists_beforeQuote (mem_drop_of_getElem? hlast (Nat.le_sub_one_of_lt hin))
  refine ⟨v, ?_⟩
  rw [clXmlParseVersion, if_pos hpos]
  simp only [hindex, hset, Option.bind_eq_bind, Option.bind_some, hv]
  rfl

theorem clXmlParseVersion_eq_none (hout : buffer.length ≤ versionBegin) (hpos : 0 < versionBegin) :
    clXmlParseVersion buffer versionBegin = none := by
  have hset : setNull buffer (versionBegin + wordSub (wordSub buffer.length versionBegin) 1) =
      none := if_neg (by omega)
  rw [clXmlParseVersion, if_pos hpos]
  simp only [hset, Option.bind_eq_bind, Option.bind_none]

/-- The end of a value that was found is inside the buffer. -/
def EndsInside (start fin n : ℕ) : Prop := 0 < start → start ≤ fin → fin < n

theorem exists_readText_inside (hlen : buffer.length = n) (h : EndsInside start fin n) :
    ∃ v buffer', readText buffer start fin = some (v, buffer') ∧ buffer'.length = n ∧
      (v = none ↔ ¬ (0 < start ∧ start ≤ fin)) := by
  subst hlen
  rw [readText]
  by_cases hread : 0 < start ∧ start ≤ fin
  · have hfin := h hread.1 hread.2
    have hset : setNull buffer fin = some (buffer.set fin '\x00') := if_pos hfin
    have hnull : (buffer.set fin '\x00')[fin]? = some '\x00' := by
      rw [List.getElem?_set_self hfin]
    obtain ⟨v, hv⟩ := exists_stringAt (mem_drop_of_getElem? hnull hread.2)
    rw [if_pos hread]
    simp only [hset, Option.bind_eq_bind, Option.bind_some, hv]
    exact ⟨some v, _, rfl, List.length_set, by simp [hread]⟩
  · exact ⟨none, buffer, if_neg hread, rfl, iff_of_true rfl hread⟩

theorem readText_eq_none (hpos : 0 < start) (hle : start ≤ fin) (hout : buffer.length ≤ fin) :
    readText buffer start fin = none := by
  have hset : setNull buffer fin = none := if_neg (by omega)
  rw [readText, if_pos ⟨hpos, hle⟩]
  simp only [hset, Option.bind_eq_bind, Option.bind_none]

theorem exists_readValue (hlen : buffer.length = n) (h : EndsInside start fin n) :
    ∃ v buffer', readValue buffer start fin = some (v, buffer') ∧ buffer'.length = n := by
  obtain ⟨v, buffer', hread, hlen, -⟩ := exists_readText_inside hlen h
  refine ⟨(v.map clUtilGetUlongValue).getD 0, buffer', ?_, hlen⟩
  rw [readValue, hread]
  rfl

theorem exists_copyQuoted (h : fin < i + text.length) :
    ∃ r, copyQuoted fin text i inQuotes helpBuf = some r := by
  induction text generalizing i inQuotes helpBuf with
  | nil =>
      rw [List.length_nil] at h
      exact ⟨_, if_neg fun hle => absurd hle.1 (by omega)⟩
  | cons c text ih =>
      rw [List.length_cons] at h
      rw [copyQuoted]
      by_cases hgo : i ≤ fin ∧ helpBuf.length < 254
      · rw [if_pos hgo]
        split_ifs
        · exact ⟨_, rfl⟩
        all_goals exact ih (by omega)
      · exact ⟨_, if_neg hgo⟩

theorem exists_copyAll (h : fin < i + text.length) : ∃ r, copyAll fin text i helpBuf = some r := by
  induction text generalizing i helpBuf with
  | nil =>
      rw [List.length_nil] at h
      exact ⟨_, if_neg fun hle => absurd hle.1 (by omega)⟩
  | cons c text ih =>
      rw [List.length_cons] at h
      rw [copyAll]
      split_ifs
      · exact ih (by omega)
      · exact ⟨_, rfl⟩

theorem lt_add_length_drop (h : fin < buffer.length) : fin < i + (buffer.drop i).length := by
  rw [List.length_drop]
  omega

theorem exists_readEndpoint (hlen : buffer.length = n) (h : EndsInside start fin n) :
    ∃ endpoint, readEndpoint buffer start fin = some endpoint := by
  subst hlen
  rw [readEndpoint]
  by_cases hread : 0 < start ∧ start ≤ fin
  · have hfin := h hread.1 hread.2
    obtain ⟨⟨i, host⟩, hhost⟩ :=
      @exists_copyQuoted _ [] fin start false (@lt_add_length_drop buffer fin start hfin)
    obtain ⟨⟨j, name⟩, hname⟩ :=
      @exists_copyQuoted _ [] fin i false (@lt_add_length_drop buffer fin i hfin)
    obtain ⟨⟨k, id⟩, hid⟩ :=
      @exists_copyQuoted _ [] fin j false (@lt_add_length_drop buffer fin j hfin)
    rw [if_pos hread, readAttributes_eq hhost hname hid]
    exact ⟨_, rfl⟩
  · exact ⟨none, if_neg hread⟩

theorem exists_readStatus (hlen : buffer.length = n) (h : EndsInside start fin n) :
    ∃ status, readStatus buffer start fin = some status := by
  subst hlen
  rw [readStatus]
  by_cases hread : 0 < start ∧ start ≤ fin
  · have hfin := h hread.1 hread.2
    obtain ⟨⟨i, condition⟩, hcondition⟩ :=
      @exists_copyQuoted _ [] fin start false (@lt_add_length_drop buffer fin start hfin)
    obtain ⟨text, htext⟩ :=
      @exists_copyAll _ [] fin (i + 1) (@lt_add_length_drop buffer fin (i + 1) hfin)
    rw [if_pos hread]
    simp only [hcondition, htext, Option.bind_eq_bind, Option.bind_some]
    exact ⟨_, rfl⟩
  · exact ⟨_, if_neg hread⟩

theorem exists_readParams (hlen : buffer.length = n) (h : EndsInside start fin n) :
    ∃ params, readParams buffer start fin = some params := by
  subst hlen
  rw [readParams]
  by_cases hread : 0 < start ∧ start ≤ fin
  · obtain ⟨params, hparams⟩ := @exists_copyAll _ [] fin start
      (@lt_add_length_drop buffer fin start (h hread.1 hread.2))
    rw [if_pos hread, hparams]
    exact ⟨_, rfl⟩
  · exact ⟨none, if_neg hread⟩

end Reads

section Quotes
variable {buffer text helpBuf : List Char} {fin a b b' i j : ℕ}

/-- No quote stands between two positions. -/
def QuoteFree (text : List Char) (a b : ℕ) : Prop := ∀ i, a ≤ i → i < b → text[i]? ≠ some '"'

/-- The position behind the first quoted value, or behind 254 of its characters. -/
def QuotedTo (text : List Char) (a b : ℕ) : Prop :=
  ∃ i, a ≤ i ∧ text[i]? = some '"' ∧ QuoteFree text a i ∧
    ((∃ j, i < j ∧ j ≤ i + 254 ∧ text[j]? = some '"' ∧ QuoteFree text (i + 1) j ∧ b = j + 1) ∨
      (b = i + 255 ∧ b ≤ text.length ∧ QuoteFree text (i + 1) b))

theorem QuotedTo.unique (h : QuotedTo text a b) (h' : QuotedTo text a b') : b = b' := by
  obtain ⟨i, hi, hquote, hfree, hend⟩ := h
  obtain ⟨i', hi', hquote', hfree', hend'⟩ := h'
  have heq : i = i' := le_antisymm (not_lt.mp fun hlt => hfree i' hi' hlt hquote')
    (not_lt.mp fun hlt => hfree' i hi hlt hquote)
  subst heq
  rcases hend with ⟨j, hij, hj, hclose, hinner, rfl⟩ | ⟨rfl, -, hinner⟩
  · rcases hend' with ⟨j', hij', hj', hclose', hinner', rfl⟩ | ⟨rfl, -, hinner'⟩
    · have heq : j = j' := le_antisymm (not_lt.mp fun hlt => hinner j' hij' hlt hclose')
        (not_lt.mp fun hlt => hinner' j hij hlt hclose)
      rw [heq]
    · exact absurd hclose (hinner' j hij (by omega))
  · rcases hend' with ⟨j', hij', hj', hclose', hinner', rfl⟩ | ⟨rfl, -, -⟩
    · exact absurd hclose' (hinner j' hij' (by omega))
    · rfl

theorem QuotedTo.le (h : QuotedTo text a b) : a < b ∧ b ≤ text.length := by
  obtain ⟨i, hi, hquote, -, ⟨j, hij, -, hclose, -, rfl⟩ | ⟨rfl, hle, -⟩⟩ := h
  · exact ⟨by omega, (List.getElem?_eq_some_iff.mp hclose).1⟩
  · exact ⟨by omega, hle⟩

/-- Only the places of the quotes matter. -/
theorem quotedTo_congr (hlen : buffer.length = text.length)
    (h : ∀ i : ℕ, buffer[i]? = some '"' ↔ text[i]? = some '"') :
    QuotedTo buffer a b ↔ QuotedTo text a b := by
  have hfree : ∀ i j, QuoteFree buffer i j ↔ QuoteFree text i j := fun i j =>
    forall_congr' fun m => forall₂_congr fun _ _ => not_congr (h m)
  simp only [QuotedTo, hfree, h, hlen]

theorem split_at (hle : a ≤ i) (hi : i ≤ buffer.length) :
    ∃ s, buffer.drop a = s ++ buffer.drop i ∧ s.length = i - a ∧
      (QuoteFree buffer a i → '"' ∉ s) := by
  refine ⟨(buffer.drop a).take (i - a), ?_, ?_, fun hfree hmem => ?_⟩
  · have hdrop : buffer.drop i = (buffer.drop a).drop (i - a) := by
      rw [List.drop_drop, Nat.add_sub_cancel' hle]
    rw [hdrop, List.take_append_drop]
  · rw [List.length_take, List.length_drop]
    omega
  · obtain ⟨m, hm, heq⟩ := List.mem_iff_getElem.mp hmem
    rw [List.length_take] at hm
    refine hfree (a + m) (by omega) (by omega) ?_
    rw [← List.getElem?_drop, ← List.getElem?_take_of_lt (by omega : m < i - a)]
    exact List.getElem?_eq_some_iff.mpr ⟨_, heq⟩

theorem drop_quote (h : buffer[i]? = some '"') : buffer.drop i = '"' :: buffer.drop (i + 1) := by
  obtain ⟨hi, heq⟩ := List.getElem?_eq_some_iff.mp h
  rw [List.drop_eq_getElem_cons hi, heq]

theorem copyQuoted_no_quote (h : '"' ∉ text) (hfin : i + text.length ≤ fin) :
    copyQuoted fin text i false [] = none := by
  induction text generalizing i with
  | nil => exact if_pos ⟨hfin, by simp⟩
  | cons c text ih =>
      obtain ⟨hc, htext⟩ := not_or.mp (mt List.mem_cons.mpr h)
      rw [List.length_cons] at hfin
      rw [copyQuoted, if_pos ⟨by omega, by simp⟩, if_neg (Ne.symm hc)]
      exact ih htext (by omega)

theorem copyQuoted_no_end (h : '"' ∉ text) (hfin : i + text.length ≤ fin)
    (hroom : helpBuf.length + text.length < 254) : copyQuoted fin text i true helpBuf = none := by
  induction text generalizing i helpBuf with
  | nil => exact if_pos ⟨hfin, hroom⟩
  | cons c text ih =>
      obtain ⟨hc, htext⟩ := not_or.mp (mt List.mem_cons.mpr h)
      rw [List.length_cons] at hfin hroom
      rw [copyQuoted, if_pos ⟨by omega, by omega⟩, if_neg (Ne.symm hc), if_pos rfl]
      exact ih htext (by omega) (by rw [List.length_append, List.length_singleton]; omega)

/-- The loop stops behind 254 characters. -/
theorem copyQuoted_stop {s rest : List Char} (h : '"' ∉ s) (hfin : i + s.length ≤ fin)
    (hroom : helpBuf.length + s.length = 254) :
    copyQuoted fin (s ++ rest) i true helpBuf = some (i + s.length, helpBuf ++ s) := by
  induction s generalizing i helpBuf with
  | nil =>
      rw [List.nil_append, List.append_nil]
      have hfull : ¬ (i ≤ fin ∧ helpBuf.length < 254) := fun h => by
        rw [List.length_nil] at hroom
        omega
      cases rest with
      | nil => exact if_neg hfull
      | cons c rest => exact if_neg hfull
  | cons c s ih =>
      obtain ⟨hc, hs⟩ := not_or.mp (mt List.mem_cons.mpr h)
      rw [List.length_cons] at hfin hroom
      rw [List.cons_append, copyQuoted, if_pos ⟨by omega, by omega⟩, if_neg (Ne.symm hc),
        if_pos rfl, ih hs (by omega) (by rw [List.length_append, List.length_singleton]; omega),
        List.append_assoc, List.singleton_append, List.length_cons, Nat.add_right_comm i 1,
        Nat.add_assoc i s.length 1]

theorem exists_first {P : ℕ → Prop} (h : ∃ i, a ≤ i ∧ P i) :
    ∃ i, a ≤ i ∧ P i ∧ ∀ j, a ≤ j → j < i → ¬ P j := by
  classical
  exact ⟨Nat.find h, (Nat.find_spec h).1, (Nat.find_spec h).2, fun j hj hlt hP =>
    Nat.find_min h hlt ⟨hj, hP⟩⟩

/-- Without an end the loop stops behind a quoted value, or leaves the buffer. -/
theorem copyQuoted_open (hfin : buffer.length ≤ fin) (ha : a ≤ buffer.length) :
    (∃ b v, QuotedTo buffer a b ∧ copyQuoted fin (buffer.drop a) a false [] = some (b, v)) ∨
      ((∀ b, ¬ QuotedTo buffer a b) ∧ copyQuoted fin (buffer.drop a) a false [] = none) := by
  by_cases hopen : ∃ i, a ≤ i ∧ buffer[i]? = some '"'
  · obtain ⟨i, hi, hquote, hfree⟩ := exists_first hopen
    have hlt : i < buffer.length := (List.getElem?_eq_some_iff.mp hquote).1
    obtain ⟨s, hs, hslen, hsfree⟩ := split_at hi hlt.le
    have hskip : copyQuoted fin (buffer.drop a) a false [] =
        copyQuoted fin (buffer.drop (i + 1)) (i + 1) true [] := by
      rw [hs, drop_quote hquote, copyQuoted_skip (hsfree hfree) (by omega), hslen,
        Nat.add_sub_cancel' hi]
    rw [hskip]
    by_cases hfull : i + 255 ≤ buffer.length ∧ QuoteFree buffer (i + 1) (i + 255)
    · obtain ⟨v, hv, hvlen, hvfree⟩ := split_at (by omega : i + 1 ≤ i + 255) hfull.1
      refine .inl ⟨i + 255, v, ⟨i, hi, hquote, hfree, .inr ⟨rfl, hfull⟩⟩, ?_⟩
      rw [hv, copyQuoted_stop (hvfree hfull.2) (by omega) (by simp; omega), List.nil_append, hvlen]
      congr 2
      omega
    by_cases hclose : ∃ j, i + 1 ≤ j ∧ buffer[j]? = some '"'
    · obtain ⟨j, hj, hquote', hfree'⟩ := exists_first hclose
      have hlt' : j < buffer.length := (List.getElem?_eq_some_iff.mp hquote').1
      have hshort : j ≤ i + 254 := by
        by_contra hlong
        exact hfull ⟨by omega, fun m hm hlt => hfree' m hm (by omega)⟩
      obtain ⟨v, hv, hvlen, hvfree⟩ := split_at hj hlt'.le
      refine .inl ⟨j + 1, v, ⟨i, hi, hquote, hfree, .inl ⟨j, hj, hshort, hquote', hfree', rfl⟩⟩, ?_⟩
      rw [hv, drop_quote hquote', copyQuoted_fits (hvfree hfree') (by omega) (by simp; omega),
        List.nil_append, hvlen, Nat.add_sub_cancel' hj]
    · -- no closing quote and fewer than 254 characters
      have hnone : QuoteFree buffer (i + 1) buffer.length := fun m hm _ hq => hclose ⟨m, hm, hq⟩
      have hshort : buffer.length < i + 255 := by
        by_contra hlong
        exact hfull ⟨by omega, fun m hm hlt => hnone m hm (by omega)⟩
      obtain ⟨v, hv, hvlen, hvfree⟩ := split_at hlt le_rfl
      rw [List.drop_length, List.append_nil] at hv
      refine .inr ⟨fun b hb => ?_, ?_⟩
      · obtain ⟨i', hi', hquote', -, hend⟩ := hb
        have hle : i' ≤ i := not_lt.mp fun hlt => hclose ⟨i', hlt, hquote'⟩
        have hge : i ≤ i' := not_lt.mp fun hlt => hfree i' hi' hlt hquote'
        obtain rfl : i = i' := le_antisymm hge hle
        rcases hend with ⟨j, hj, -, hquote'', -⟩ | ⟨rfl, hle', -⟩
        · exact hclose ⟨j, hj, hquote''⟩
        · omega
      · rw [hv]
        exact copyQuoted_no_end (hvfree hnone) (by omega) (by simp; omega)
  · have hnone : QuoteFree buffer a buffer.length := fun m hm _ hq => hopen ⟨m, hm, hq⟩
    obtain ⟨v, hv, hvlen, hvfree⟩ := split_at ha le_rfl
    rw [List.drop_length, List.append_nil] at hv
    refine .inr ⟨fun b ⟨i, hi, hquote, _⟩ => hopen ⟨i, hi, hquote⟩, ?_⟩
    rw [hv]
    exact copyQuoted_no_quote (hvfree hnone) (by omega)

theorem copyAll_open (hfin : i + text.length ≤ fin) (hbuf : helpBuf.length ≤ 254) :
    (254 ≤ helpBuf.length + text.length → ∃ r, copyAll fin text i helpBuf = some r) ∧
      (helpBuf.length + text.length < 254 → copyAll fin text i helpBuf = none) := by
  induction text generalizing i helpBuf with
  | nil =>
      rw [List.length_nil] at hfin ⊢
      exact ⟨fun h => ⟨_, if_neg fun hgo => absurd hgo.2 (by omega)⟩,
        fun h => if_pos ⟨hfin, by omega⟩⟩
  | cons c text ih =>
      rw [List.length_cons] at hfin ⊢
      rw [copyAll]
      by_cases hfull : helpBuf.length < 254
      · have hbuf' : (helpBuf ++ [c]).length = helpBuf.length + 1 := by simp
        obtain ⟨hsome, hnone⟩ := @ih (helpBuf ++ [c]) (i + 1) (by omega) (by omega)
        rw [if_pos ⟨by omega, hfull⟩]
        exact ⟨fun h => hsome (by omega), fun h => hnone (by omega)⟩
      · exact ⟨fun _ => ⟨_, if_neg fun hgo => hfull hgo.2⟩, fun h => absurd h (by omega)⟩

end Quotes

section Parsers
variable {text buffer name : List Char} {exact : Bool} {ending : List (List Char)}
variable {rules : List TagRule} {scan : TagScan} {q n : ℕ} {rule : TagRule}

theorem NamedTag.length_le (h : NamedTag ending text exact name q) (hname : '>' ∉ name) :
    (cursor ending text q).tagBegin + name.length ≤ q := by
  obtain ⟨⟨-, hclose, hlt, -⟩, hstands, -⟩ := h
  by_contra hgt
  rw [List.prefix_iff_getElem?] at hstands
  have hchar := hstands (q - (cursor ending text q).tagBegin) (by omega)
  rw [List.getElem?_drop, Nat.add_sub_cancel' (by omega), hclose] at hchar
  exact hname (Option.some.inj hchar ▸ List.getElem_mem _)

theorem NamedTag.lt_length (h : NamedTag ending text exact name q) : q < text.length :=
  (List.getElem?_eq_some_iff.mp h.1.2.1).1

theorem VersionSign.lt_length (h : VersionSign ending text q) : q < text.length :=
  (List.getElem?_eq_some_iff.mp h.1.2.1).1

theorem wordSub_lt {x back : ℕ} (hle : back ≤ x) (hx : x < n) (hn : n < 2 ^ 64) :
    wordSub x back < n := by
  rw [wordSub_eq hle (by omega)]
  omega

theorem Scanned.endsInside (h : Scanned exact ending rules text text.length scan)
    (hrule : rule ∈ rules)
    (hclosing : ∀ q, NamedTag ending text exact ('/' :: rule.name) q →
      rule.closing (cursor ending text q).tagBegin q < text.length) :
    EndsInside (scan.begins rule.name) (scan.ends rule.name) text.length := by
  intro hpos hle
  rcases (h.ends rule hrule).final fun q hq => hq.lt_length with ⟨hzero, -⟩ | ⟨q, hq, hvalue, -⟩
  · omega
  · exact hvalue ▸ hclosing q hq

theorem behindTag_closing {length : ℕ} {word : String} (hname : '>' ∉ word.toList)
    (hlength : length ≤ word.toList.length + 2) (hn : text.length < 2 ^ 64)
    (h : NamedTag ending text exact ('/' :: word.toList) q) : wordSub q length < text.length := by
  have hle := h.length_le fun hmem => (List.mem_cons.mp hmem).elim (by decide) hname
  rw [List.length_cons] at hle
  have hpos := h.1.2.2.2
  exact wordSub_lt (by omega) h.lt_length hn

theorem betweenTags_closing (hn : text.length < 2 ^ 64)
    (h : NamedTag ending text exact name q) :
    wordSub (cursor ending text q).tagBegin 1 < text.length := by
  have hpos := h.1.2.2.2
  have hlt := h.1.2.2.1
  have hq := h.lt_length
  exact wordSub_lt hpos (by omega) hn

instance {ending : List (List Char)} {text : List Char} {q : ℕ} :
    Decidable (VersionSign ending text q) :=
  inferInstanceAs (Decidable ((_ ∧ _ ∧ _) ∧ _))

/-- The text in which the quotes are looked for: reading the version puts a terminator at its
end. -/
def quotedText (ending : List (List Char)) (text : List Char) : List Char :=
  if ∃ q < text.length, VersionSign ending text q then text.set (text.length - 1) '\x00' else text

theorem Scanned.version_cases (h : Scanned exact ending rules text text.length scan)
    (hn : text.length < 2 ^ 64) (hbuffer : buffer.length = text.length) :
    (LateVersion ending text ∧ clXmlParseVersion buffer scan.versionBegin = none) ∨
      (¬ LateVersion ending text ∧ ∃ v buffer', clXmlParseVersion buffer scan.versionBegin =
        some (v, buffer') ∧ buffer'.length = text.length ∧
          ((∀ i : ℕ, buffer[i]? = some '"' ↔ text[i]? = some '"') →
            ∀ i : ℕ, buffer'[i]? = some '"' ↔ (quotedText ending text)[i]? = some '"')) := by
  rcases h.version.final fun q hq => hq.lt_length with ⟨hzero, hnone⟩ | ⟨q, hq, hvalue, hfirst⟩
  · refine .inr ⟨fun hlate => hlate.1.elim hnone, none, buffer, ?_, hbuffer, fun hquotes => ?_⟩
    · rw [clXmlParseVersion, if_neg (by omega)]
    · rw [quotedText, if_neg fun hsign => hsign.elim fun q hq => hnone q hq.2]
      exact hquotes
  · have hpos : 0 < scan.versionBegin := by
      rw [hvalue]
      exact Nat.succ_pos _
    by_cases hlate : text.length ≤ q + 2
    · refine .inl ⟨⟨⟨q, hq⟩, fun q' hq' => ?_⟩, clXmlParseVersion_eq_none ?_ hpos⟩
      · have hle : q ≤ q' := hfirst q' hq'
        omega
      · rw [hbuffer, hvalue]
        exact hlate
    · refine .inr ⟨fun hall => hlate (hall.2 q hq), ?_⟩
      obtain ⟨v, hv⟩ := exists_clXmlParseVersion (by rw [hbuffer]; exact hn)
        (by rw [hbuffer, hvalue]; exact not_le.mp hlate) hpos
      refine ⟨v, _, hv, by rw [List.length_set, hbuffer], fun hquotes i => ?_⟩
      rw [quotedText, if_pos ⟨q, hq.lt_length, hq⟩, hbuffer, List.getElem?_set, List.getElem?_set,
        hbuffer]
      split_ifs
      · exact Iff.rfl
      · exact Iff.rfl
      · exact hquotes i

/-- A parser that reads the version behind the scan and goes on with the values. -/
theorem parse_iff {β : Type} {onTag : TagScan → ℕ → Option TagScan} {Q : Prop}
    {rest : TagScan → Option (List Char) → List Char → Option β} (hrules : GoodRules rules)
    (hending : ∀ name ∈ ending, 2 ≤ name.length ∧ ∀ c ∈ name, c ≠ '\x00' ∧ c ≠ '>')
    (hhandles : Handles exact ending rules onTag) (hn : text.length < 2 ^ 64)
    (hrest : ∀ scan v buffer, Scanned exact ending rules text text.length scan →
      buffer.length = text.length →
      (∀ i : ℕ, buffer[i]? = some '"' ↔ (quotedText ending text)[i]? = some '"') →
      ((∃ r, rest scan v buffer = some r) ↔ Q)) :
    (∃ r, ((scanBuffer onTag text).bind fun scan =>
      (clXmlParseVersion scan.buffer scan.versionBegin).bind fun x => rest scan x.1 x.2) = some r) ↔
    ¬ CutAtVersion ending text ∧ ¬ LateVersion ending text ∧ Q := by
  rcases scanBuffer_spec hrules hending hhandles with ⟨hcut, hnone⟩ | ⟨hcut, scan, hsome, hscan⟩
  · rw [hnone]
    exact iff_of_false not_exists_none_eq fun h => h.1 hcut
  · have hlen : scan.buffer.length = text.length := by rw [hscan.buffer, length_terminated]
    rw [hsome, Option.bind_some]
    rcases hscan.version_cases hn hlen with ⟨hlate, hnone⟩ | ⟨hlate, v, buffer, hv, hlen', hquotes⟩
    · rw [hnone]
      exact iff_of_false not_exists_none_eq fun h => h.2.1 hlate
    · have hquotes' := hquotes fun i => by
        rw [hscan.buffer]
        exact terminated_eq_some (by decide) (by decide)
      rw [hv, Option.bind_some, hrest scan v buffer hscan hlen' hquotes']
      exact ⟨fun hQ => ⟨hcut, hlate, hQ⟩, fun h => h.2.2⟩

theorem goodRules_nil : GoodRules [] :=
  ⟨fun _ h => absurd h List.not_mem_nil, List.Pairwise.nil, fun _ h => absurd h List.not_mem_nil⟩

theorem parseVersionOnly_iff {word : String} {moves : Bool} (hn : text.length < 2 ^ 64)
    (hword : 2 ≤ word.toList.length ∧ ∀ c ∈ word.toList, c ≠ '\x00' ∧ c ≠ '>') :
    (∃ r, parseVersionOnly word moves text = some r) ↔
      ¬ CutAtVersion (if moves then [word.toList] else []) text ∧
        ¬ LateVersion (if moves then [word.toList] else []) text := by
  have hending : ∀ name ∈ (if moves then [word.toList] else []), 2 ≤ name.length ∧
      ∀ c ∈ name, c ≠ '\x00' ∧ c ≠ '>' := by
    cases moves with
    | false => exact fun _ h => absurd h List.not_mem_nil
    | true => exact fun name h => List.mem_singleton.mp h ▸ hword
  have hparse := @parse_iff text true _ [] (Option (List Char)) (lastTag word.toList moves) True
    (fun _ v _ => some v) goodRules_nil hending
    (handles_lastTag fun hmem => (hword.2 _ hmem).1 rfl) hn
    fun _ v _ _ _ _ => iff_of_true ⟨v, rfl⟩ True.intro
  rw [and_true] at hparse
  exact hparse

theorem Scanned.between (h : Scanned true [] rules text text.length scan)
    (hn : text.length < 2 ^ 64) {word : String} (hrule : betweenTags word 1 ∈ rules) :
    EndsInside (scan.begins word.toList) (scan.ends word.toList) text.length :=
  h.endsInside hrule fun _ hq => betweenTags_closing hn hq

def mihRules : List TagRule :=
  [betweenTags "mid" 1, betweenTags "dl" 1, betweenTags "df" 1, betweenTags "mat" 1,
    betweenTags "tag" 1, betweenTags "rid" 1]

def sirmRules : List TagRule :=
  [betweenTags "mid" 1, betweenTags "starttime" 1, betweenTags "runtime" 1, betweenTags "brm" 1,
    betweenTags "bwm" 1, betweenTags "noc" 1, betweenTags "status" 1, betweenTags "info" 1]

theorem goodRules_mih : GoodRules mihRules :=
  ⟨names_of_all (by decide), by decide, by simp [mihRules, betweenTags]⟩

theorem goodRules_sirm : GoodRules sirmRules :=
  ⟨names_of_all (by decide), by decide, by simp [sirmRules, betweenTags]⟩

/-- What the parser of a header reads behind the version. -/
def readMih (scan : TagScan) (version : Option (List Char)) (buffer : List Char) :
    Option (ParseRetval × ClComMih) := do
  let value := fun buffer name => readValue buffer (scan.begins name) (scan.ends name)
  let text := fun buffer name => readText buffer (scan.begins name) (scan.ends name)
  let (mid, buffer) ← value buffer "mid".toList
  let (tag, buffer) ← value buffer "tag".toList
  let (rid, buffer) ← value buffer "rid".toList
  let (dl, buffer) ← value buffer "dl".toList
  let (df, buffer) ← text buffer "df".toList
  let (mat, _) ← text buffer "mat".toList
  return (if clDefineMaxMessageLength < dl then .maxMessageLengthError else .ok,
    ⟨version, mid, dl, (df.map parsedDf).getD .undefined, (mat.map parsedMat).getD .undefined,
      tag, rid⟩)

theorem clXmlParseMih_iff (hn : text.length < 2 ^ 64) : (∃ r, clXmlParseMih text = some r) ↔
    ¬ CutAtVersion [] text ∧ ¬ LateVersion [] text := by
  have hparse := @parse_iff text true [] mihRules _ (valueTag strcmp mihRules) True
    readMih goodRules_mih (fun _ h => absurd h List.not_mem_nil) (handles_valueTag goodRules_mih)
    hn ?_
  · rw [and_true] at hparse
    exact hparse
  · intro scan version buffer hscan hlen _
    refine iff_of_true ?_ True.intro
    obtain ⟨mid, b₁, h₁, hlen⟩ := exists_readValue hlen
      (@Scanned.between _ _ _ hscan hn "mid" (by simp [mihRules]))
    obtain ⟨tag, b₂, h₂, hlen⟩ := exists_readValue hlen
      (@Scanned.between _ _ _ hscan hn "tag" (by simp [mihRules]))
    obtain ⟨rid, b₃, h₃, hlen⟩ := exists_readValue hlen
      (@Scanned.between _ _ _ hscan hn "rid" (by simp [mihRules]))
    obtain ⟨dl, b₄, h₄, hlen⟩ := exists_readValue hlen
      (@Scanned.between _ _ _ hscan hn "dl" (by simp [mihRules]))
    obtain ⟨df, b₅, h₅, hlen, -⟩ := exists_readText_inside hlen
      (@Scanned.between _ _ _ hscan hn "df" (by simp [mihRules]))
    obtain ⟨mat, b₆, h₆, -, -⟩ := exists_readText_inside hlen
      (@Scanned.between _ _ _ hscan hn "mat" (by simp [mihRules]))
    simp only [readMih, h₁, h₂, h₃, h₄, h₅, h₆, Option.bind_eq_bind, Option.bind_some]
    exact ⟨_, rfl⟩

/-- What the parser of a status response reads behind the version. -/
def readSirm (scan : TagScan) (version : Option (List Char)) (buffer : List Char) :
    Option ClComSirm := do
  let value := fun buffer name => readValue buffer (scan.begins name) (scan.ends name)
  let (info, buffer) ← readText buffer (scan.begins "info".toList) (scan.ends "info".toList)
  let (mid, buffer) ← value buffer "mid".toList
  let (starttime, buffer) ← value buffer "starttime".toList
  let (runtime, buffer) ← value buffer "runtime".toList
  let (brm, buffer) ← value buffer "brm".toList
  let (bwm, buffer) ← value buffer "bwm".toList
  let (noc, buffer) ← value buffer "noc".toList
  let (status, _) ← value buffer "status".toList
  return ⟨version, mid, starttime, runtime, brm, bwm, noc, status,
    info.map clComTransformXML2String⟩

theorem clXmlParseSirm_iff (hn : text.length < 2 ^ 64) : (∃ r, clXmlParseSirm text = some r) ↔
    ¬ CutAtVersion [] text ∧ ¬ LateVersion [] text := by
  have hparse := @parse_iff text true [] sirmRules _ (valueTag strcmp sirmRules) True
    readSirm goodRules_sirm (fun _ h => absurd h List.not_mem_nil) (handles_valueTag goodRules_sirm)
    hn ?_
  · rw [and_true] at hparse
    exact hparse
  · intro scan version buffer hscan hlen _
    refine iff_of_true ?_ True.intro
    obtain ⟨info, b₀, h₀, hlen, -⟩ := exists_readText_inside hlen
      (@Scanned.between _ _ _ hscan hn "info" (by simp [sirmRules]))
    obtain ⟨mid, b₁, h₁, hlen⟩ := exists_readValue hlen
      (@Scanned.between _ _ _ hscan hn "mid" (by simp [sirmRules]))
    obtain ⟨starttime, b₂, h₂, hlen⟩ := exists_readValue hlen
      (@Scanned.between _ _ _ hscan hn "starttime" (by simp [sirmRules]))
    obtain ⟨runtime, b₃, h₃, hlen⟩ := exists_readValue hlen
      (@Scanned.between _ _ _ hscan hn "runtime" (by simp [sirmRules]))
    obtain ⟨brm, b₄, h₄, hlen⟩ := exists_readValue hlen
      (@Scanned.between _ _ _ hscan hn "brm" (by simp [sirmRules]))
    obtain ⟨bwm, b₅, h₅, hlen⟩ := exists_readValue hlen
      (@Scanned.between _ _ _ hscan hn "bwm" (by simp [sirmRules]))
    obtain ⟨noc, b₆, h₆, hlen⟩ := exists_readValue hlen
      (@Scanned.between _ _ _ hscan hn "noc" (by simp [sirmRules]))
    obtain ⟨status, b₇, h₇, -⟩ := exists_readValue hlen
      (@Scanned.between _ _ _ hscan hn "status" (by simp [sirmRules]))
    simp only [readSirm, h₀, h₁, h₂, h₃, h₄, h₅, h₆, h₇, Option.bind_eq_bind, Option.bind_some]
    exact ⟨_, rfl⟩

/-- The last closing tag of the message id begins at the second character. -/
def MidWraps (text : List Char) : Prop :=
  (∃ q, NamedTag [] text true "mid".toList q) ∧
    ∃ q, NamedTag [] text true "/mid".toList q ∧ (cursor [] text q).tagBegin = 1 ∧
      ∀ q', NamedTag [] text true "/mid".toList q' → q' ≤ q

def amRules : List TagRule := [betweenTags "mid" 2]

theorem goodRules_am : GoodRules amRules :=
  ⟨names_of_all (by decide), by decide, by simp [amRules, betweenTags]⟩

theorem Scanned.readMid_iff (h : Scanned true [] amRules text text.length scan)
    (hn : text.length + 1 < 2 ^ 64) (hlen : buffer.length = text.length) :
    (∃ r, readValue buffer (scan.begins "mid".toList) (scan.ends "mid".toList) = some r) ↔
      ¬ MidWraps text := by
  have hmem : betweenTags "mid" 2 ∈ amRules := List.mem_cons_self
  have hinside : EndsInside (scan.begins "mid".toList) (scan.ends "mid".toList) text.length →
      ∃ r, readValue buffer (scan.begins "mid".toList) (scan.ends "mid".toList) = some r :=
    fun hinside => by
      obtain ⟨v, buffer', hread, -⟩ := exists_readValue hlen hinside
      exact ⟨_, hread⟩
  rcases (h.begins _ hmem).final fun q hq => hq.lt_length with ⟨hzero, hnone⟩ | ⟨o, ho, hbegin, -⟩
  · refine iff_of_true (hinside fun hpos => absurd hzero hpos.ne') fun hwraps => ?_
    obtain ⟨q, hq⟩ := hwraps.1
    exact hnone q hq
  rcases (h.ends _ hmem).final fun q hq => hq.lt_length with ⟨hzero, hnone⟩ | ⟨q, hq, hend, hlast⟩
  · refine iff_of_true (hinside fun hpos hle => ?_) fun hwraps => ?_
    · have hzero' : scan.ends "mid".toList = 0 := hzero
      omega
    · obtain ⟨-, q, hq, -⟩ := hwraps
      exact hnone q hq
  · have hpos := hq.1.2.2.2
    have hlt := hq.1.2.2.1
    have hq' := hq.lt_length
    by_cases hone : (cursor [] text q).tagBegin = 1
    · have hvalue : scan.ends "mid".toList = 2 ^ 64 - 1 := by
        refine hend.trans ?_
        change wordSub (cursor [] text q).tagBegin 2 = _
        rw [hone]
        rfl
      have hbegin' : scan.begins "mid".toList = o - 1 + 2 := hbegin
      have ho' := ho.lt_length
      refine iff_of_false ?_ fun hnot => hnot ⟨⟨o, ho⟩, q, hq, hone, hlast⟩
      rw [readValue, readText_eq_none (by omega) (by omega) (by omega)]
      exact not_exists_none_eq
    · refine iff_of_true (hinside fun _ _ => ?_) fun hwraps => ?_
      · exact hend ▸ wordSub_lt (by omega) (by omega) (by omega)
      · obtain ⟨-, q', hq', hone', hlast'⟩ := hwraps
        have heq : q = q' := le_antisymm (hlast' q hq) (hlast q' hq')
        exact hone (heq ▸ hone')

/-- What the parser of an acknowledge reads behind the version. -/
def readAm (scan : TagScan) (version : Option (List Char)) (buffer : List Char) :
    Option ClComAm := do
  let (mid, _) ← readValue buffer (scan.begins "mid".toList) (scan.ends "mid".toList)
  return ⟨version, mid⟩

theorem clXmlParseAm_iff (hn : text.length + 1 < 2 ^ 64) : (∃ r, clXmlParseAm text = some r) ↔
    ¬ CutAtVersion [] text ∧ ¬ LateVersion [] text ∧ ¬ MidWraps text := by
  refine @parse_iff text true [] amRules _ (valueTag strcmp amRules) (¬ MidWraps text)
    readAm goodRules_am (fun _ h => absurd h List.not_mem_nil) (handles_valueTag goodRules_am)
    (by omega) ?_
  intro scan version buffer hscan hlen _
  rw [← hscan.readMid_iff hn hlen, readAm]
  cases readValue buffer (scan.begins "mid".toList) (scan.ends "mid".toList) with
  | none => exact iff_of_false not_exists_none_eq not_exists_none_eq
  | some x => exact iff_of_true ⟨_, rfl⟩ ⟨x, rfl⟩

/-- The last closing tag of a value stands at the beginning of the buffer, so that the end of the
value wraps around. -/
def Wrapped (word : String) (text : List Char) : Prop :=
  NamedTag [] text false ('/' :: word.toList) (word.toList.length + 2) ∧
    ∀ q, NamedTag [] text false ('/' :: word.toList) q → q ≤ word.toList.length + 2

/-- The first opening tag of a value. -/
def FirstTag (word : String) (text : List Char) (q : ℕ) : Prop :=
  NamedTag [] text false word.toList q ∧ ∀ q', NamedTag [] text false word.toList q' → q ≤ q'

/-- A value without an end whose loops do not stop by themselves; they begin `front` characters
behind the beginning of the first tag. -/
def Overrun (word : String) (front : ℕ) (Stops : ℕ → Prop) (text : List Char) : Prop :=
  Wrapped word text ∧ ∃ q, FirstTag word text q ∧ ¬ Stops ((cursor [] text q).tagBegin + front)

/-- The status and 254 characters behind it are inside. -/
def StatusStops (text : List Char) (start : ℕ) : Prop :=
  ∃ b, QuotedTo (quotedText [] text) start b ∧ b + 255 ≤ text.length

/-- Three quoted values are inside. -/
def EndpointStops (text : List Char) (start : ℕ) : Prop :=
  ∃ b c d, QuotedTo (quotedText [] text) start b ∧ QuotedTo (quotedText [] text) b c ∧
    QuotedTo (quotedText [] text) c d

/-- 254 characters are inside. -/
def ParamsStop (text : List Char) (start : ℕ) : Prop := start + 254 ≤ text.length

theorem goodRules_crm : GoodRules crmRules :=
  ⟨names_of_all (by decide), by decide, by
    simp only [crmRules, List.mem_cons, List.not_mem_nil, or_false, forall_eq_or_imp, forall_eq,
      insideTag]
    exact ⟨fun p q h => by omega, fun p q h => by omega, fun p q h => by omega⟩⟩

/-- The end of a value of a connect response message is inside, or it wraps around. -/
theorem Scanned.wrap_cases (h : Scanned false [] crmRules text text.length scan)
    (hn : text.length < 2 ^ 64) {word : String} {front : ℕ} {Stops : ℕ → Prop}
    (hrule : insideTag word front (word.toList.length + 3) ∈ crmRules) (hname : '>' ∉ word.toList) :
    (EndsInside (scan.begins word.toList) (scan.ends word.toList) text.length ∧
      ¬ Overrun word front Stops text) ∨
    ∃ q, NamedTag [] text false word.toList q ∧
      scan.begins word.toList = (cursor [] text q).tagBegin + front ∧
      scan.ends word.toList = 2 ^ 64 - 1 ∧
      (Overrun word front Stops text ↔ ¬ Stops ((cursor [] text q).tagBegin + front)) := by
  have hslash : '>' ∉ '/' :: word.toList := fun hmem =>
    (List.mem_cons.mp hmem).elim (by decide) hname
  rcases (h.ends _ hrule).final fun q hq => hq.lt_length with ⟨hzero, hnone⟩ | ⟨q, hq, hend, hlast⟩
  · refine .inl ⟨fun hpos hle => ?_, fun hover => hnone _ hover.1.1⟩
    have hzero' : scan.ends word.toList = 0 := hzero
    omega
  · replace hend : scan.ends word.toList = wordSub q (word.toList.length + 3) := hend
    have hle := hq.length_le hslash
    have hpos := hq.1.2.2.2
    change _ + (word.toList.length + 1) ≤ q at hle
    by_cases hwrap : q = word.toList.length + 2
    · have hvalue : scan.ends word.toList = 2 ^ 64 - 1 := by
        rw [hend, hwrap, wordSub]
        omega
      have hwrapped : Wrapped word text := by
        refine ⟨hwrap ▸ hq, fun q' hq' => ?_⟩
        have hle' : q' ≤ q := hlast q' hq'
        omega
      rcases (h.begins _ hrule).final fun q hq => hq.lt_length with
        ⟨hzero, hnone⟩ | ⟨o, ho, hbegin, hfirst⟩
      · refine .inl ⟨fun hpos => absurd hzero hpos.ne', fun hover => ?_⟩
        obtain ⟨-, o, ho, -⟩ := hover
        exact hnone o ho.1
      · have htag : FirstTag word text o := ⟨ho, hfirst⟩
        refine .inr ⟨o, ho, hbegin, hvalue, fun hover => ?_, fun hnot => ⟨hwrapped, o, htag, hnot⟩⟩
        obtain ⟨-, o', ho', hnot⟩ := hover
        rwa [le_antisymm (htag.2 o' ho'.1) (ho'.2 o htag.1)]
    · refine .inl ⟨fun _ _ => ?_, fun hover => ?_⟩
      · rw [hend]
        exact wordSub_lt (by omega) hq.lt_length hn
      · have hle' := hover.1.2 q hq
        omega

theorem Scanned.readStatus_iff (h : Scanned false [] crmRules text text.length scan)
    (hn : text.length + 1 < 2 ^ 64) (hlen : buffer.length = text.length)
    (hquotes : ∀ i : ℕ, buffer[i]? = some '"' ↔ (quotedText [] text)[i]? = some '"')
    (hlen' : (quotedText [] text).length = text.length) :
    (∃ r, readStatus buffer (scan.begins "cs".toList) (scan.ends "cs".toList) = some r) ↔
      ¬ Overrun "cs" 3 (StatusStops text) text := by
  rcases @Scanned.wrap_cases text scan h (by omega) "cs" 3 (StatusStops text)
    List.mem_cons_self (by decide) with ⟨hinside, hover⟩ | ⟨q, hq, hbegin, hend, hover⟩
  · exact iff_of_true (exists_readStatus hlen hinside) hover
  · have hle := hq.length_le (by decide)
    have hq' := hq.lt_length
    change _ + 2 ≤ q at hle
    rw [hover, not_not, hbegin, hend, readStatus, if_pos ⟨by omega, by omega⟩]
    rcases @copyQuoted_open buffer (2 ^ 64 - 1) ((cursor [] text q).tagBegin + 3) (by omega)
      (by omega) with ⟨b, v, hto, hcopy⟩ | ⟨hnone, hcopy⟩
    · have hb := hto.le
      have hto' := (quotedTo_congr (hlen.trans hlen'.symm) hquotes).mp hto
      obtain ⟨hsome, hnone⟩ := @copyAll_open (buffer.drop (b + 1)) [] (2 ^ 64 - 1) (b + 1)
        (by rw [List.length_drop]; omega) (by simp)
      rw [List.length_nil, List.length_drop] at hsome hnone
      simp only [hcopy, Option.bind_eq_bind, Option.bind_some]
      by_cases hroom : b + 255 ≤ text.length
      · obtain ⟨r, hr⟩ := hsome (by omega)
        rw [hr]
        exact iff_of_true ⟨_, rfl⟩ ⟨b, hto', hroom⟩
      · rw [hnone (by omega)]
        refine iff_of_false not_exists_none_eq ?_
        rintro ⟨b', hb', hroom'⟩
        apply hroom
        rwa [hto'.unique hb']
    · rw [hcopy]
      refine iff_of_false not_exists_none_eq ?_
      rintro ⟨b, hb, -⟩
      apply hnone b
      exact (quotedTo_congr (hlen.trans hlen'.symm) hquotes).mpr hb

theorem readAttributes_open {a fin : ℕ} (hfin : buffer.length ≤ fin) (ha : a ≤ buffer.length) :
    (∃ r, readAttributes buffer a fin = some r) ↔
      ∃ b c d, QuotedTo buffer a b ∧ QuotedTo buffer b c ∧ QuotedTo buffer c d := by
  rcases copyQuoted_open hfin ha with ⟨b, host, hb, hhost⟩ | ⟨hnone, hhost⟩
  · rcases copyQuoted_open hfin hb.le.2 with ⟨c, name, hc, hname⟩ | ⟨hnone, hname⟩
    · rcases copyQuoted_open hfin hc.le.2 with ⟨d, id, hd, hid⟩ | ⟨hnone, hid⟩
      · exact iff_of_true ⟨_, readAttributes_eq hhost hname hid⟩ ⟨b, c, d, hb, hc, hd⟩
      · rw [readAttributes]
        simp only [hhost, hname, hid, Option.bind_eq_bind, Option.bind_some, Option.bind_none]
        refine iff_of_false not_exists_none_eq ?_
        rintro ⟨b', c', d, hb', hc', hd⟩
        obtain rfl := hb.unique hb'
        obtain rfl := hc.unique hc'
        exact hnone d hd
    · rw [readAttributes]
      simp only [hhost, hname, Option.bind_eq_bind, Option.bind_some, Option.bind_none]
      refine iff_of_false not_exists_none_eq ?_
      rintro ⟨b', c, -, hb', hc, -⟩
      obtain rfl := hb.unique hb'
      exact hnone c hc
  · rw [readAttributes]
    simp only [hhost, Option.bind_eq_bind, Option.bind_none]
    refine iff_of_false not_exists_none_eq ?_
    rintro ⟨b, -, -, hb, -, -⟩
    exact hnone b hb

theorem Scanned.readRdata_iff (h : Scanned false [] crmRules text text.length scan)
    (hn : text.length + 1 < 2 ^ 64) (hlen : buffer.length = text.length)
    (hquotes : ∀ i : ℕ, buffer[i]? = some '"' ↔ (quotedText [] text)[i]? = some '"')
    (hlen' : (quotedText [] text).length = text.length) :
    (∃ r, readEndpoint buffer (scan.begins "rdata".toList) (scan.ends "rdata".toList) = some r) ↔
      ¬ Overrun "rdata" 6 (EndpointStops text) text := by
  rcases @Scanned.wrap_cases text scan h (by omega) "rdata" 6 (EndpointStops text)
    (List.mem_cons_of_mem _ List.mem_cons_self) (by decide) with
    ⟨hinside, hover⟩ | ⟨q, hq, hbegin, hend, hover⟩
  · exact iff_of_true (exists_readEndpoint hlen hinside) hover
  · have hle := hq.length_le (by decide)
    have hq' := hq.lt_length
    change _ + 5 ≤ q at hle
    have hstops : EndpointStops text ((cursor [] text q).tagBegin + 6) ↔
        ∃ r, readAttributes buffer ((cursor [] text q).tagBegin + 6) (2 ^ 64 - 1) = some r := by
      rw [readAttributes_open (by omega) (by omega), EndpointStops]
      simp only [quotedTo_congr (hlen.trans hlen'.symm) hquotes]
    rw [hover, not_not, hbegin, hend, readEndpoint, if_pos ⟨by omega, by omega⟩, hstops]
    simp only [Option.map_eq_some_iff]
    constructor
    · rintro ⟨_, r, hr, -⟩
      exact ⟨r, hr⟩
    · rintro ⟨r, hr⟩
      exact ⟨_, r, hr, rfl⟩

theorem Scanned.readParams_iff (h : Scanned false [] crmRules text text.length scan)
    (hn : text.length + 1 < 2 ^ 64) (hlen : buffer.length = text.length) :
    (∃ r, readParams buffer (scan.begins "params".toList) (scan.ends "params".toList) = some r) ↔
      ¬ Overrun "params" 7 (ParamsStop text) text := by
  rcases @Scanned.wrap_cases text scan h (by omega) "params" 7 (ParamsStop text)
    (List.mem_cons_of_mem _ (List.mem_cons_of_mem _ List.mem_cons_self)) (by decide) with
    ⟨hinside, hover⟩ | ⟨q, hq, hbegin, hend, hover⟩
  · exact iff_of_true (exists_readParams hlen hinside) hover
  · have hle := hq.length_le (by decide)
    have hq' := hq.lt_length
    change _ + 6 ≤ q at hle
    obtain ⟨hsome, hnone⟩ := @copyAll_open (buffer.drop ((cursor [] text q).tagBegin + 7)) []
      (2 ^ 64 - 1) ((cursor [] text q).tagBegin + 7) (by rw [List.length_drop]; omega) (by simp)
    rw [List.length_nil, List.length_drop] at hsome hnone
    rw [hover, not_not, hbegin, hend, readParams, if_pos ⟨by omega, by omega⟩, ParamsStop]
    by_cases hroom : (cursor [] text q).tagBegin + 7 + 254 ≤ text.length
    · obtain ⟨r, hr⟩ := hsome (by omega)
      rw [hr]
      exact iff_of_true ⟨_, rfl⟩ hroom
    · rw [hnone (by omega)]
      exact iff_of_false not_exists_none_eq hroom

theorem length_quotedText : (quotedText ending text).length = text.length := by
  rw [quotedText]
  split_ifs
  · exact List.length_set
  · rfl

/-- What the parser of a connect response reads behind the version. -/
def readCrm (scan : TagScan) (version : Option (List Char)) (buffer : List Char) :
    Option ClComCrm := do
  let (csCondition, csText) ←
    readStatus buffer (scan.begins "cs".toList) (scan.ends "cs".toList)
  let rdata ← readEndpoint buffer (scan.begins "rdata".toList) (scan.ends "rdata".toList)
  let params ← readParams buffer (scan.begins "params".toList) (scan.ends "params".toList)
  return ⟨version, csCondition, csText, "not supported".toList, rdata, params⟩

theorem clXmlParseCrm_inside_iff (hn : text.length + 1 < 2 ^ 64) :
    (∃ r, clXmlParseCrm text = some r) ↔
      ¬ CutAtVersion [] text ∧ ¬ LateVersion [] text ∧ ¬ Overrun "cs" 3 (StatusStops text) text ∧
        ¬ Overrun "rdata" 6 (EndpointStops text) text ∧
        ¬ Overrun "params" 7 (ParamsStop text) text := by
  refine @parse_iff text false [] crmRules _ (valueTag strncmp crmRules) _
    readCrm goodRules_crm (fun _ h => absurd h List.not_mem_nil) (handles_valueTag goodRules_crm)
    (by omega) ?_
  intro scan version buffer hscan hlen hquotes
  rw [← hscan.readStatus_iff hn hlen hquotes length_quotedText,
    ← hscan.readRdata_iff hn hlen hquotes length_quotedText, ← hscan.readParams_iff hn hlen,
    readCrm]
  cases readStatus buffer (scan.begins "cs".toList) (scan.ends "cs".toList) with
  | none => exact iff_of_false not_exists_none_eq fun h => not_exists_none_eq h.1
  | some status =>
      cases readEndpoint buffer (scan.begins "rdata".toList) (scan.ends "rdata".toList) with
      | none => exact iff_of_false not_exists_none_eq fun h => not_exists_none_eq h.2.1
      | some rdata =>
          cases readParams buffer (scan.begins "params".toList) (scan.ends "params".toList) with
          | none => exact iff_of_false not_exists_none_eq fun h => not_exists_none_eq h.2.2
          | some params => exact iff_of_true ⟨_, rfl⟩ ⟨⟨_, rfl⟩, ⟨_, rfl⟩, _, rfl⟩

/-- The port stands between its last opening and its last closing tag. -/
def PortFound (text : List Char) : Prop :=
  ∃ o q, (NamedTag [] text false "port".toList o ∧
      ∀ o', NamedTag [] text false "port".toList o' → o' ≤ o) ∧
    (NamedTag [] text false "/port".toList q ∧
      ∀ q', NamedTag [] text false "/port".toList q' → q' ≤ q) ∧ o + 7 ≤ q

theorem goodRules_cm : GoodRules cmRules :=
  ⟨names_of_all (by decide), by decide, by
    simp only [cmRules, List.mem_cons, List.not_mem_nil, or_false, forall_eq_or_imp, forall_eq,
      insideTag, behindTag]
    refine ⟨?_, ?_, ?_, ?_, ?_, ?_⟩ <;> exact fun p q h => by omega⟩

theorem Scanned.behind (h : Scanned false [] rules text text.length scan)
    (hn : text.length < 2 ^ 64) {word : String} {length : ℕ}
    (hrule : behindTag word length ∈ rules) (hname : '>' ∉ word.toList)
    (hlength : length ≤ word.toList.length + 2) :
    EndsInside (scan.begins word.toList) (scan.ends word.toList) text.length :=
  h.endsInside hrule fun _ hq => behindTag_closing hname hlength hn hq

theorem Scanned.inside (h : Scanned false [] rules text text.length scan)
    (hn : text.length < 2 ^ 64) {word : String} {front length : ℕ}
    (hrule : insideTag word front length ∈ rules) (hname : '>' ∉ word.toList)
    (hlength : length ≤ word.toList.length + 2) :
    EndsInside (scan.begins word.toList) (scan.ends word.toList) text.length :=
  h.endsInside hrule fun _ hq => behindTag_closing hname hlength hn hq

theorem Scanned.port_iff (h : Scanned false [] cmRules text text.length scan)
    (hn : text.length < 2 ^ 64) :
    (0 < scan.begins "port".toList ∧ scan.begins "port".toList ≤ scan.ends "port".toList) ↔
      PortFound text := by
  have hmem : behindTag "port" 6 ∈ cmRules :=
    List.mem_cons_of_mem _ (List.mem_cons_of_mem _ List.mem_cons_self)
  rcases (h.begins _ hmem).final fun q hq => hq.lt_length with
    ⟨hzero, hnone⟩ | ⟨o, ho, hbegin, hlast⟩
  · refine iff_of_false (fun hfound => hfound.1.ne' hzero) ?_
    rintro ⟨o, q, ho, -⟩
    exact hnone o ho.1
  replace hbegin : scan.begins "port".toList = o + 1 := hbegin
  rcases (h.ends _ hmem).final fun q hq => hq.lt_length with ⟨hzero, hnone⟩ | ⟨q, hq, hend, hlast'⟩
  · replace hzero : scan.ends "port".toList = 0 := hzero
    refine iff_of_false (fun hfound => by omega) ?_
    rintro ⟨o, q, -, hq, -⟩
    exact hnone q hq.1
  · have hle := hq.length_le (by decide)
    have hpos := hq.1.2.2.2
    have hlt := hq.lt_length
    change _ + 5 ≤ q at hle
    have hvalue : scan.ends "port".toList = q - 6 := hend.trans (wordSub_eq (by omega) (by omega))
    rw [hbegin, hvalue]
    constructor
    · exact fun hfound => ⟨o, q, ⟨ho, hlast⟩, ⟨hq, hlast'⟩, by omega⟩
    · rintro ⟨o', q', ho', hq', hroom⟩
      have heq : o = o' := le_antisymm (ho'.2 o ho) (hlast o' ho'.1)
      have heq' : q = q' := le_antisymm (hq'.2 q hq) (hlast' q' hq'.1)
      omega

theorem clXmlParseCm_inside_iff (hn : text.length < 2 ^ 64) :
    (∃ r, clXmlParseCm text = some r) ↔
      ¬ CutAtVersion [] text ∧ ¬ (PortFound text ∧ LateVersion [] text) := by
  have hspec := @scanBuffer_spec text false [] cmRules (valueTag strncmp cmRules) goodRules_cm
    (fun _ h => absurd h List.not_mem_nil) (handles_valueTag goodRules_cm)
  rcases hspec with ⟨hcut, hnone⟩ | ⟨hcut, scan, hsome, hscan⟩
  · rw [clXmlParseCm, hnone]
    exact iff_of_false not_exists_none_eq fun h => h.1 hcut
  have hlen : scan.buffer.length = text.length := by rw [hscan.buffer, length_terminated]
  obtain ⟨df, b₁, h₁, hlen₁, -⟩ := exists_readText_inside hlen
    (@Scanned.behind _ _ _ hscan hn "df" 4 (by simp [cmRules]) (by decide) (by decide))
  obtain ⟨ct, b₂, h₂, hlen₂, -⟩ := exists_readText_inside hlen₁
    (@Scanned.behind _ _ _ hscan hn "ct" 4 (by simp [cmRules]) (by decide) (by decide))
  obtain ⟨port, b₃, h₃, hlen₃, hport⟩ := exists_readText_inside hlen₂
    (@Scanned.behind _ _ _ hscan hn "port" 6 (by simp [cmRules]) (by decide) (by decide))
  obtain ⟨ac, b₄, h₄, hlen₄, -⟩ := exists_readText_inside hlen₃
    (@Scanned.behind _ _ _ hscan hn "ac" 4 (by simp [cmRules]) (by decide) (by decide))
  rw [hscan.port_iff hn] at hport
  rw [clXmlParseCm, hsome]
  simp only [Option.bind_eq_bind, Option.bind_some, h₁, h₂, h₃]
  cases port with
  | none => exact iff_of_true ⟨_, rfl⟩ ⟨hcut, fun h => hport.mp rfl h.1⟩
  | some port =>
      have hfound : PortFound text := not_not.mp fun h =>
        Option.some_ne_none port (hport.mpr h)
      simp only [h₄, Option.bind_some]
      rcases hscan.version_cases hn hlen₄ with ⟨hlate, hnone⟩ | ⟨hlate, v, b₅, hv, hlen₅, -⟩
      · rw [hnone]
        exact iff_of_false not_exists_none_eq fun h => h.2 ⟨hfound, hlate⟩
      · refine iff_of_true ?_ ⟨hcut, fun h => hlate h.2⟩
        obtain ⟨rdata, hrdata⟩ := exists_readEndpoint hlen₅
          (@Scanned.inside _ _ _ hscan hn "rdata" 0 7 (by simp [cmRules]) (by decide) (by decide))
        obtain ⟨dst, hdst⟩ := exists_readEndpoint hlen₅
          (@Scanned.inside _ _ _ hscan hn "dst" 0 5 (by simp [cmRules]) (by decide) (by decide))
        simp only [hv, Option.bind_some, hrdata, hdst]
        split_ifs
        · exact ⟨_, rfl⟩
        · exact ⟨_, rfl⟩
        · exact ⟨_, rfl⟩

end Parsers

/-- The parsers of messages. -/
inductive MessageParser
  | cm | crm | mih | am | sim | sirm | ccm | ccrm
deriving DecidableEq, Repr

namespace MessageParser

/-- Every access of the parser is inside the buffer. -/
def staysInside : MessageParser → List Char → Bool
  | .cm, buffer => (clXmlParseCm buffer).isSome
  | .crm, buffer => (clXmlParseCrm buffer).isSome
  | .mih, buffer => (clXmlParseMih buffer).isSome
  | .am, buffer => (clXmlParseAm buffer).isSome
  | .sim, buffer => (clXmlParseSim buffer).isSome
  | .sirm, buffer => (clXmlParseSirm buffer).isSome
  | .ccm, buffer => (clXmlParseCcm buffer).isSome
  | .ccrm, buffer => (clXmlParseCcrm buffer).isSome

/-- The tags behind which the parser passes over a character. -/
def ending : MessageParser → List (List Char)
  | .sim => ["/sim".toList]
  | _ => []

/-- What makes the values of a message leave the buffer. -/
def Escapes : MessageParser → List Char → Prop
  | .cm, text => PortFound text ∧ LateVersion [] text
  | .crm, text => LateVersion [] text ∨ Overrun "cs" 3 (StatusStops text) text ∨
      Overrun "rdata" 6 (EndpointStops text) text ∨ Overrun "params" 7 (ParamsStop text) text
  | .am, text => LateVersion [] text ∨ MidWraps text
  | parser, text => LateVersion parser.ending text

/-- A header that makes the parser leave the buffer. -/
def Hostile (parser : MessageParser) (text : List Char) : Prop :=
  CutAtVersion parser.ending text ∨ parser.Escapes text

end MessageParser

/-- A parser stays inside a buffer exactly when its content is not hostile. -/
theorem staysInside_iff {parser : MessageParser} {text : List Char}
    (hn : text.length + 1 < 2 ^ 64) :
    parser.staysInside text = true ↔ ¬ parser.Hostile text := by
  have hn' : text.length < 2 ^ 64 := by omega
  cases parser with
  | cm =>
      rw [MessageParser.staysInside, Option.isSome_iff_exists, clXmlParseCm_inside_iff hn']
      exact not_or.symm
  | crm =>
      rw [MessageParser.staysInside, Option.isSome_iff_exists, clXmlParseCrm_inside_iff hn,
        MessageParser.Hostile, MessageParser.Escapes, not_or, not_or, not_or, not_or]
      exact Iff.rfl
  | mih =>
      rw [MessageParser.staysInside, Option.isSome_iff_exists, clXmlParseMih_iff hn']
      exact not_or.symm
  | am =>
      rw [MessageParser.staysInside, Option.isSome_iff_exists, clXmlParseAm_iff hn,
        MessageParser.Hostile, MessageParser.Escapes, not_or, not_or]
      exact Iff.rfl
  | sim =>
      rw [MessageParser.staysInside, Option.isSome_iff_exists, clXmlParseSim,
        parseVersionOnly_iff hn' ⟨by decide, forall_chars (by decide)⟩]
      exact not_or.symm
  | sirm =>
      rw [MessageParser.staysInside, Option.isSome_iff_exists, clXmlParseSirm_iff hn']
      exact not_or.symm
  | ccm =>
      rw [MessageParser.staysInside, Option.isSome_iff_exists, clXmlParseCcm,
        parseVersionOnly_iff hn' ⟨by decide, forall_chars (by decide)⟩]
      exact not_or.symm
  | ccrm =>
      rw [MessageParser.staysInside, Option.isSome_iff_exists, clXmlParseCcrm,
        parseVersionOnly_iff hn' ⟨by decide, forall_chars (by decide)⟩]
      exact not_or.symm

theorem not_hostile_sim :
    ¬ MessageParser.Hostile .sim "<sim version=\"0.1\"></sim>".toList :=
  (staysInside_iff (by decide)).mp (by decide)

/-- The version of a message that is cut off behind its sign is looked for behind the buffer. -/
theorem sim_cut_leaves :
    MessageParser.staysInside .sim "<sim version=".toList = false := by
  decide

end GridEngine.CheckedBuffer
