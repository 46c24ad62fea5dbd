import GridEngine.CheckedParsers

/-!
# The connection handshake on the wire

The values between tags are read back whole. The attributes of an endpoint go through a buffer of
254 characters: a loop that fills it stops in front of the closing quote, and the next loop takes
that quote for an opening one.
-/

namespace GridEngine.CheckedBuffer

section Copying
variable {fin i : ℕ} {s v rest helpBuf : List Char}

theorem copyQuoted_skip (hs : '"' ∉ s) (hi : i + s.length ≤ fin) :
    copyQuoted fin (s ++ '"' :: rest) i false [] =
      copyQuoted fin rest (i + s.length + 1) true [] := by
  induction s generalizing i with
  | nil =>
      have hle : i ≤ fin := hi
      simp [copyQuoted, hle]
  | cons c s ih =>
      rw [List.length_cons] at hi
      obtain ⟨hc, hs⟩ := not_or.mp (mt List.mem_cons.mpr hs)
      have hle : i ≤ fin := by omega
      rw [List.cons_append, copyQuoted, if_pos ⟨hle, by simp⟩, if_neg (Ne.symm hc)]
      simp only [Bool.false_eq_true, if_false]
      rw [ih hs (by omega), List.length_cons, Nat.add_right_comm i 1, Nat.add_assoc i s.length 1]

/-- The characters in front of the closing quote are copied while they fit. -/
theorem copyQuoted_fits (hs : '"' ∉ s) (hi : i + s.length ≤ fin)
    (hlen : helpBuf.length + s.length ≤ 253) :
    copyQuoted fin (s ++ '"' :: rest) i true helpBuf =
      some (i + s.length + 1, helpBuf ++ s) := by
  induction s generalizing i helpBuf with
  | nil =>
      have hle : i ≤ fin := hi
      have hlt : helpBuf.length < 254 := by
        rw [List.length_nil] at hlen
        omega
      simp [copyQuoted, hle, hlt]
  | cons c s ih =>
      rw [List.length_cons] at hi hlen
      obtain ⟨hc, hs⟩ := not_or.mp (mt List.mem_cons.mpr hs)
      rw [List.cons_append, copyQuoted, if_pos ⟨by omega, by omega⟩, if_neg (Ne.symm hc),
        if_pos rfl, ih hs (by omega) (by rw [List.length_append, List.length_singleton]; omega),
        List.append_assoc, List.singleton_append, List.length_cons, Nat.add_right_comm i 1,
        Nat.add_assoc i s.length 1]

theorem copyQuoted_full (hs : '"' ∉ s) (hi : i + s.length ≤ fin) (hbuf : helpBuf.length ≤ 254)
    (hlen : 254 ≤ helpBuf.length + s.length) :
    copyQuoted fin (s ++ '"' :: rest) i true helpBuf =
      some (i + (254 - helpBuf.length), helpBuf ++ s.take (254 - helpBuf.length)) := by
  induction s generalizing i helpBuf with
  | nil =>
      have heq : helpBuf.length = 254 := by
        rw [List.length_nil] at hlen
        omega
      simp [copyQuoted, heq]
  | cons c s ih =>
      rw [List.length_cons] at hi hlen
      obtain ⟨hc, hs⟩ := not_or.mp (mt List.mem_cons.mpr hs)
      rw [List.cons_append, copyQuoted]
      by_cases hfull : helpBuf.length = 254
      · rw [if_neg (by omega), hfull]
        simp
      · obtain ⟨k, hk⟩ : ∃ k, 254 - helpBuf.length = k + 1 := ⟨253 - helpBuf.length, by omega⟩
        have hk' : 254 - (helpBuf ++ [c]).length = k := by
          rw [List.length_append, List.length_singleton]
          omega
        rw [if_pos ⟨by omega, by omega⟩, if_neg (Ne.symm hc), if_pos rfl,
          ih hs (by omega) (by rw [List.length_append, List.length_singleton]; omega)
            (by rw [List.length_append, List.length_singleton]; omega), hk, hk',
          List.take_succ_cons, List.append_assoc, List.singleton_append]
        congr 2
        omega

theorem copyQuoted_value (hs : '"' ∉ s) (hv : '"' ∉ v) (hi : i + s.length + v.length < fin) :
    copyQuoted fin (s ++ '"' :: (v ++ '"' :: rest)) i false [] =
      if v.length ≤ 253 then some (i + s.length + v.length + 2, v)
      else some (i + s.length + 255, v.take 254) := by
  rw [copyQuoted_skip hs (by omega)]
  by_cases hlen : v.length ≤ 253
  · rw [if_pos hlen, copyQuoted_fits hv (by omega) (by simpa using hlen)]
    congr 2
    omega
  · rw [if_neg hlen, copyQuoted_full hv (by omega) (by simp) (by simp; omega)]
    rfl

/-- The loop over everything. -/
theorem copyAll_eq (hi : i + s.length = fin + 1) (hbuf : helpBuf.length ≤ 254) :
    copyAll fin (s ++ rest) i helpBuf =
      some (helpBuf ++ s.take (254 - helpBuf.length)) := by
  induction s generalizing i helpBuf with
  | nil =>
      have hlt : ¬ (i ≤ fin ∧ helpBuf.length < 254) := by
        rw [List.length_nil] at hi
        omega
      cases rest with
      | nil => rw [List.append_nil, copyAll, if_neg hlt, List.take_nil, List.append_nil]
      | cons c rest => rw [List.nil_append, copyAll, if_neg hlt, List.take_nil, List.append_nil]
  | cons c s ih =>
      rw [List.length_cons] at hi
      rw [List.cons_append, copyAll]
      by_cases hfull : helpBuf.length = 254
      · rw [if_neg (by omega), hfull]
        simp
      · obtain ⟨k, hk⟩ : ∃ k, 254 - helpBuf.length = k + 1 := ⟨253 - helpBuf.length, by omega⟩
        have hk' : 254 - (helpBuf ++ [c]).length = k := by
          rw [List.length_append, List.length_singleton]
          omega
        rw [if_pos ⟨by omega, by omega⟩,
          ih (by omega) (by rw [List.length_append, List.length_singleton]; omega), hk, hk',
          List.take_succ_cons, List.append_assoc, List.singleton_append]

end Copying

section Endpoints
variable {fin start id : ℕ} {lead host name digits tail buffer : List Char}

/-- The attributes of an endpoint in a tag, behind the name of the tag. -/
def attributes (lead host name digits : List Char) : List Char :=
  lead ++ "host=".toList ++ '"' :: (host ++ '"' :: (" comp=".toList ++ '"' :: (name ++ '"' ::
    (" id=".toList ++ '"' :: (digits ++ ['"'])))))

theorem length_attributes : (attributes lead host name digits).length =
    lead.length + host.length + name.length + digits.length + 21 := by
  simp [attributes]
  omega

/-- The endpoints that come through the loops over their attributes. -/
def ClComEndpoint.Fits (endpoint : ClComEndpoint) : Prop :=
  (endpoint.compHost.length ≤ 253 ∧ (endpoint.compName.length ≤ 253 ∨
    (endpoint.compName.length = 254 ∧ endpoint.compId = 0))) ∨
  (endpoint.compHost.length = 254 ∧ endpoint.compName = " comp=".toList ∧ endpoint.compId = 0)

theorem cString_self {s : List Char} (hs : '\x00' ∉ s) : cString s = s := by
  have h : ∀ c ∈ s, decide (c ≠ '\x00') = true := fun c hc => decide_eq_true fun h => hs (h ▸ hc)
  have htake := @List.takeWhile_append_of_pos _ _ s [] h
  rwa [List.append_nil, List.takeWhile_nil, List.append_nil] at htake

theorem cString_take {s : List Char} (hs : '\x00' ∉ s) (n : ℕ) : cString (s.take n) = s.take n :=
  cString_self fun h => hs (List.mem_of_mem_take h)

theorem isDigit_special {c : Char} (hc : c.isDigit = true) :
    isSpace c = false ∧ c ≠ '-' ∧ c ≠ '+' ∧ c ≠ '"' := by
  refine ⟨?_, ?_, ?_, ?_⟩
  · rw [Char.isDigit, Bool.and_eq_true, decide_eq_true_eq, decide_eq_true_eq] at hc
    have hle : '0'.toNat ≤ c.toNat := hc.1
    have hgt : ¬ c ≤ '\r' := fun h => by
      have hle' : c.toNat ≤ '\r'.toNat := h
      have h48 : '0'.toNat = 48 := rfl
      have h13 : '\r'.toNat = 13 := rfl
      omega
    have hne : c ≠ ' ' := by
      rintro rfl
      exact absurd hle (by decide)
    simp [isSpace, hgt, hne]
  all_goals
    rintro rfl
    exact absurd hc (by decide)

theorem length_formatLd (hid : id < 2 ^ 63) : (formatLd id).length ≤ 19 := by
  rw [formatLd_eq hid]
  exact Nat.toDigits_length 10 id 19 (by norm_num) (hid.trans (by norm_num))

theorem clUtilGetUlongValue_formatLd (hid : id < 2 ^ 63) :
    clUtilGetUlongValue (formatLd id) = id := by
  have hvalue := @GridEngine.clUtilGetUlongValue_formatLd id [] hid (by simp)
  rw [List.append_nil, GridEngine.clUtilGetUlongValue] at hvalue
  have hnumber : leadingNumber (formatLd id) = id := by
    rw [leadingNumber, hvalue]
    omega
  have hdigits := formatLd_digits hid
  cases hl : formatLd id with
  | nil => rw [← hnumber, hl]; rfl
  | cons c l =>
      obtain ⟨hspace, hminus, hplus, -⟩ := isDigit_special (hdigits c (hl ▸ List.mem_cons_self))
      rw [hl] at hnumber
      rw [clUtilGetUlongValue, List.dropWhile_cons_of_neg (by simp [hspace]), List.head?_cons,
        if_neg (fun h => hminus (Option.some.inj h)), if_neg (fun h => hplus (Option.some.inj h)),
        hnumber]

theorem drop_front {front rest : List Char} {i j : ℕ} (h : buffer.drop i = front ++ rest)
    (hj : j = i + front.length) : buffer.drop j = rest := by
  rw [hj, ← List.drop_drop, h, List.drop_left]

/-- The loop at a quoted value: a value that fills the buffer leaves its closing quote behind. -/
theorem copyQuoted_at {i : ℕ} {s v rest : List Char}
    (h : buffer.drop i = s ++ '"' :: (v ++ '"' :: rest)) (hs : '"' ∉ s) (hv : '"' ∉ v)
    (hi : i + s.length + v.length < fin) :
    (v.length ≤ 253 → ∃ j, copyQuoted fin (buffer.drop i) i false [] = some (j, v) ∧
      j = i + s.length + v.length + 2 ∧ buffer.drop j = rest) ∧
    (v.length = 254 → ∃ j, copyQuoted fin (buffer.drop i) i false [] = some (j, v) ∧
      j = i + s.length + 255 ∧ buffer.drop j = '"' :: rest) ∧
    (254 < v.length →
      ∃ j, copyQuoted fin (buffer.drop i) i false [] = some (j, v.take 254)) := by
  have hvalue := @copyQuoted_value fin i s v rest hs hv hi
  rw [← h] at hvalue
  refine ⟨fun hlen => ⟨_, hvalue.trans (if_pos hlen), rfl, ?_⟩, fun hlen => ?_, fun hlen => ?_⟩
  · refine @drop_front buffer (s ++ '"' :: (v ++ ['"'])) rest i _ (by rw [h]; simp) ?_
    simp
    omega
  · rw [if_neg (by omega), List.take_of_length_le (by omega)] at hvalue
    refine ⟨_, hvalue, rfl, ?_⟩
    refine @drop_front buffer (s ++ '"' :: v) ('"' :: rest) i _ (by rw [h]; simp) ?_
    simp
    omega
  · exact ⟨_, hvalue.trans (if_neg (by omega))⟩

theorem readAttributes_eq {i j k : ℕ} {a b c : List Char}
    (h₁ : copyQuoted fin (buffer.drop start) start false [] = some (i, a))
    (h₂ : copyQuoted fin (buffer.drop i) i false [] = some (j, b))
    (h₃ : copyQuoted fin (buffer.drop j) j false [] = some (k, c)) :
    readAttributes buffer start fin =
      some ⟨cString a, cString b, clUtilGetUlongValue (cString c)⟩ := by
  simp only [readAttributes, h₁, h₂, h₃, Option.bind_eq_bind, Option.bind_some]
  rfl

theorem readAttributes_host {i : ℕ} {a : List Char} {endpoint : ClComEndpoint}
    (h : copyQuoted fin (buffer.drop start) start false [] = some (i, a))
    (hread : readAttributes buffer start fin = some endpoint) : endpoint.compHost = cString a := by
  simp only [readAttributes, h, Option.bind_eq_bind, Option.bind_some,
    Option.bind_eq_some_iff] at hread
  obtain ⟨_, -, _, -, heq⟩ := hread
  cases heq
  rfl

theorem readAttributes_name {i j : ℕ} {a b : List Char} {endpoint : ClComEndpoint}
    (h₁ : copyQuoted fin (buffer.drop start) start false [] = some (i, a))
    (h₂ : copyQuoted fin (buffer.drop i) i false [] = some (j, b))
    (hread : readAttributes buffer start fin = some endpoint) : endpoint.compName = cString b := by
  simp only [readAttributes, h₁, h₂, Option.bind_eq_bind, Option.bind_some,
    Option.bind_eq_some_iff] at hread
  obtain ⟨_, -, heq⟩ := hread
  cases heq
  rfl

theorem readAttributes_iff
    (hbuf : buffer.drop start = attributes lead host name (formatLd id) ++ tail)
    (hfin : start + (attributes lead host name (formatLd id)).length ≤ fin + 1)
    (hlead : '"' ∉ lead) (hhost : '"' ∉ host) (hname : '"' ∉ name) (hhost' : '\x00' ∉ host)
    (hname' : '\x00' ∉ name) (hid : id < 2 ^ 63) :
    readAttributes buffer start fin = some ⟨host, name, id⟩ ↔
      ClComEndpoint.Fits ⟨host, name, id⟩ := by
  have hdigits : '"' ∉ formatLd id := fun h =>
    (isDigit_special (formatLd_digits hid _ h)).2.2.2 rfl
  have hshort := length_formatLd hid
  have hvalue := clUtilGetUlongValue_formatLd hid
  have hnull : '\x00' ∉ formatLd id := fun h =>
    (isDigit_ne (formatLd_digits hid _ h)).2.2.2 rfl
  generalize formatLd id = digits at *
  rw [length_attributes] at hfin
  have hzero : clUtilGetUlongValue (cString " id=".toList) = 0 := by decide
  have hcomp : " comp=".toList.length = 6 := rfl
  have hident : " id=".toList.length = 4 := rfl
  have hlead' : '"' ∉ lead ++ "host=".toList := by simp [hlead]
  have hleadLen : (lead ++ "host=".toList).length = lead.length + 5 := by simp
  obtain ⟨hfits, hfills, hlong⟩ := @copyQuoted_at fin buffer start (lead ++ "host=".toList) host
    (" comp=".toList ++ '"' :: (name ++ '"' :: (" id=".toList ++ '"' :: (digits ++ '"' :: tail))))
    (by rw [hbuf]; simp [attributes]) hlead' hhost (by omega)
  have hfitsIff : ClComEndpoint.Fits ⟨host, name, id⟩ ↔
      (host.length ≤ 253 ∧ (name.length ≤ 253 ∨ (name.length = 254 ∧ id = 0))) ∨
        (host.length = 254 ∧ name = " comp=".toList ∧ id = 0) := Iff.rfl
  rw [hfitsIff]
  rcases lt_trichotomy host.length 254 with hlt | heq | hgt
  · obtain ⟨i, hfirst, hi, hrest⟩ := hfits (by omega)
    obtain ⟨hfits, hfills, hlong⟩ := @copyQuoted_at fin buffer i " comp=".toList name _ hrest
      (by decide) hname (by omega)
    rcases lt_trichotomy name.length 254 with hlt' | heq' | hgt'
    · obtain ⟨j, hsecond, hj, hrest'⟩ := hfits (by omega)
      obtain ⟨_, hthird, -⟩ := (@copyQuoted_at fin buffer j " id=".toList digits tail hrest'
        (by decide) hdigits (by omega)).1 (by omega)
      rw [readAttributes_eq hfirst hsecond hthird, cString_self hhost', cString_self hname',
        cString_self hnull, hvalue]
      exact iff_of_true rfl (.inl ⟨by omega, .inl (by omega)⟩)
    · -- the closing quote of the name is taken for the opening one of the id
      obtain ⟨j, hsecond, hj, hrest'⟩ := hfills heq'
      obtain ⟨_, hthird, -⟩ := (@copyQuoted_at fin buffer j [] " id=".toList (digits ++ '"' :: tail)
        hrest' (by simp) (by decide) (by simp; omega)).1 (by omega)
      rw [readAttributes_eq hfirst hsecond hthird, hzero, cString_self hhost', cString_self hname',
        Option.some.injEq, ClComEndpoint.mk.injEq]
      constructor
      · rintro ⟨-, -, hid⟩
        exact .inl ⟨by omega, .inr ⟨heq', hid.symm⟩⟩
      · rintro (⟨-, hle | ⟨-, hid⟩⟩ | ⟨hhost, -, -⟩)
        · omega
        · exact ⟨rfl, rfl, hid.symm⟩
        · omega
    · obtain ⟨j, hsecond⟩ := hlong hgt'
      refine iff_of_false (fun hread => ?_) (by rintro (⟨-, h | h⟩ | h) <;> omega)
      have hlen := congrArg List.length (readAttributes_name hfirst hsecond hread)
      rw [cString_take hname', List.length_take] at hlen
      change name.length = _ at hlen
      omega
  · -- the closing quote of the host is taken for an opening one
    obtain ⟨i, hfirst, hi, hrest⟩ := hfills heq
    obtain ⟨j, hsecond, hj, hrest'⟩ := (@copyQuoted_at fin buffer i [] " comp=".toList _ hrest
      (by simp) (by decide) (by simp; omega)).1 (by decide)
    obtain ⟨_, hthird, -⟩ := (@copyQuoted_at fin buffer j name " id=".toList (digits ++ '"' :: tail)
      hrest' hname (by decide) (by simp at hj; omega)).1 (by decide)
    have hcString : cString " comp=".toList = " comp=".toList := by decide
    rw [readAttributes_eq hfirst hsecond hthird, hzero, hcString, cString_self hhost',
      Option.some.injEq, ClComEndpoint.mk.injEq]
    constructor
    · rintro ⟨-, hname, hid⟩
      exact .inr ⟨heq, hname.symm, hid.symm⟩
    · rintro (⟨hle, -⟩ | ⟨-, hname, hid⟩)
      · omega
      · exact ⟨rfl, hname.symm, hid.symm⟩
  · obtain ⟨i, hfirst⟩ := hlong hgt
    refine iff_of_false (fun hread => ?_) (by rintro (⟨h, -⟩ | ⟨h, -⟩) <;> omega)
    have hlen := congrArg List.length (readAttributes_host hfirst hread)
    rw [cString_take hhost', List.length_take] at hlen
    change host.length = _ at hlen
    omega

end Endpoints

section Scan
variable {onTag : TagScan → ℕ → Option TagScan} {scan out : TagScan} {p m n : ℕ} {c : Char}
variable {pre s post : List Char} {rules : List TagRule} {pieces rest : List Piece}

theorem scanFrom_add : scanFrom onTag scan p (m + n) =
    (scanFrom onTag scan p m).bind fun out => scanFrom onTag out (p + m) n := by
  rw [scanFrom, ← List.range'_append_1, List.foldlM_append]
  rfl

theorem scanFrom_one : scanFrom onTag scan p 1 = scanStep onTag scan p := by
  simp [scanFrom]

theorem scanFrom_succ : scanFrom onTag scan p (n + 1) =
    (scanStep onTag scan p).bind fun out => scanFrom onTag out (p + 1) n := by
  rw [Nat.add_comm, scanFrom_add, scanFrom_one]

theorem getElem_front (hbuf : scan.buffer = pre ++ c :: post) :
    scan.buffer[pre.length]? = some c := by simp [hbuf]

theorem scanFrom_plain (hskip : scan.skip = false) (hbuf : scan.buffer = pre ++ (s ++ post))
    (hs : ∀ c ∈ s, c ≠ '<' ∧ c ≠ '>') (hversion : scan.versionBegin ≠ 0) :
    scanFrom onTag scan pre.length s.length = some scan := by
  induction s generalizing pre with
  | nil => rfl
  | cons c s ih =>
      obtain ⟨hlt, hgt⟩ := hs c List.mem_cons_self
      have hstep : scanStep onTag scan pre.length = some scan := by
        simp [scanStep, hskip, getElem_front hbuf, hlt, hgt, hversion]
      have hlen : pre.length + 1 = (pre ++ [c]).length := by simp
      rw [List.length_cons, scanFrom_succ, hstep, Option.bind_some, hlen]
      exact ih (by simpa using hbuf) (fun c' hc' => hs c' (List.mem_cons_of_mem _ hc'))

/-- A whole tag, behind the version. -/
theorem scanFrom_tag (hskip : scan.skip = false) (hlen : 2 ≤ s.length)
    (hs : ∀ c ∈ s, c ≠ '<' ∧ c ≠ '>') (hversion : scan.versionBegin ≠ 0)
    (hbuf : scan.buffer = pre ++ '<' :: (s ++ '>' :: post)) :
    scanFrom onTag scan pre.length (s.length + 2) =
      onTag { scan with
          buffer := pre ++ '<' :: (s ++ '\x00' :: post)
          inTag := false
          tagBegin := pre.length + 1 } (pre.length + 1 + s.length) := by
  have hopen : scanStep onTag scan pre.length = some (scan.opened pre.length) := by
    simp [scanStep, hskip, getElem_front hbuf]
  have hfront : pre.length + 1 = (pre ++ ['<']).length := by simp
  have hcontent : scanFrom onTag (scan.opened pre.length) (pre.length + 1) s.length =
      some (scan.opened pre.length) := by
    rw [hfront]
    refine @scanFrom_plain onTag (scan.opened pre.length) (pre ++ ['<']) s ('>' :: post) hskip ?_
      hs hversion
    simpa [TagScan.opened] using hbuf
  have hpos : pre.length + 1 + s.length = (pre ++ '<' :: s).length := by
    simp
    omega
  have hbuf' : (scan.opened pre.length).buffer = (pre ++ '<' :: s) ++ '>' :: post := by
    simpa [TagScan.opened] using hbuf
  have hset : setNull (scan.opened pre.length).buffer (pre.length + 1 + s.length) =
      some (pre ++ '<' :: (s ++ '\x00' :: post)) := by
    rw [setNull, hbuf', hpos, if_pos (by simp), List.set_append_right _ _ le_rfl, Nat.sub_self,
      List.set_cons_zero]
    simp
  have hend := @getElem_front (scan.opened pre.length) '>' (pre ++ '<' :: s) post hbuf'
  rw [← hpos] at hend
  have hinside : (scan.opened pre.length).tagBegin < pre.length + 1 + s.length - 1 ∧
      0 < (scan.opened pre.length).tagBegin := by
    change pre.length + 1 < _ ∧ 0 < pre.length + 1
    omega
  have hskip' : (scan.opened pre.length).skip = false := hskip
  rw [show s.length + 2 = s.length + 1 + 1 from rfl, scanFrom_succ, hopen, Option.bind_some,
    scanFrom_add, hcontent, Option.bind_some, scanFrom_one, scanStep, hskip']
  simp only [Bool.false_eq_true, if_false, hend, Option.bind_eq_bind, Option.bind_some,
    Char.reduceEq, if_true, if_pos hinside, hset]
  rw [← hskip]
  rfl

/-- The first rule with the name of a tag. -/
def hitRule (rules : List TagRule) (s : List Char) : Option TagRule :=
  rules.find? fun rule => rule.name.isPrefixOf s

/-- What a tag with this content does that begins at a position. -/
def markTag (rules : List TagRule) (p : ℕ) (s : List Char) (scan : TagScan) : TagScan :=
  let scan := { scan with inTag := false, tagBegin := p + 1 }
  match hitRule rules (if s.head? = some '/' then s.tail else s) with
  | some rule => rule.apply (s.head? = some '/') (p + 1 + s.length) scan
  | none => scan

/-- What pieces do. -/
def markAll (rules : List TagRule) : ℕ → List Piece → TagScan → TagScan
  | _, [], scan => scan
  | p, .text s :: rest, scan => markAll rules (p + s.length) rest scan
  | p, .tag s :: rest, scan => markAll rules (p + (s.length + 2)) rest (markTag rules p s scan)

/-- A piece of a message with attributes in its tags. -/
def Piece.Clean : Piece → Prop
  | .tag content => 2 ≤ content.length ∧ ∀ c ∈ content, c ≠ '<' ∧ c ≠ '>' ∧ c ≠ '\x00'
  | .text content => ∀ c ∈ content, c ≠ '<' ∧ c ≠ '>'

theorem strncmp_eq {name : List Char} (hname : '\x00' ∉ name) :
    strncmp (s ++ '\x00' :: post) name = some (name.isPrefixOf s) := by
  induction name generalizing s with
  | nil => simp [strncmp]
  | cons d name ih =>
      obtain ⟨hd, hname⟩ := not_or.mp (mt List.mem_cons.mpr hname)
      cases s with
      | nil => simp [strncmp, hd]
      | cons c s =>
          rw [List.cons_append, strncmp, List.isPrefixOf_cons_cons]
          by_cases hc : c = d
          · rw [if_pos hc, ih hname, hc, BEq.rfl, Bool.true_and]
          · have hne : (d == c) = false := beq_eq_false_iff_ne.mpr (Ne.symm hc)
            rw [if_neg hc, hne, Bool.false_and]

theorem firstHit_eq (hrules : ∀ rule ∈ rules, '\x00' ∉ rule.name) :
    firstHit strncmp (s ++ '\x00' :: post) rules = some (hitRule rules s) := by
  induction rules with
  | nil => rfl
  | cons rule rules ih =>
      rw [firstHit, strncmp_eq (hrules rule List.mem_cons_self), hitRule, List.find?_cons]
      cases rule.name.isPrefixOf s with
      | true => rfl
      | false => exact ih fun rule' h => hrules rule' (List.mem_cons_of_mem rule h)

theorem apply_frame {rule : TagRule} {closing : Bool} :
    (rule.apply closing p scan).skip = scan.skip ∧ (rule.apply closing p scan).inTag = scan.inTag ∧
      (rule.apply closing p scan).versionBegin = scan.versionBegin ∧
      (rule.apply closing p scan).tagBegin = scan.tagBegin ∧
      ∀ buffer, rule.apply closing p { scan with buffer := buffer } =
        { rule.apply closing p scan with buffer := buffer } := by
  unfold TagRule.apply
  split_ifs <;> exact ⟨rfl, rfl, rfl, rfl, fun _ => rfl⟩

theorem markTag_frame : (markTag rules p s scan).skip = scan.skip ∧
    (markTag rules p s scan).inTag = false ∧
    (markTag rules p s scan).versionBegin = scan.versionBegin ∧
    ∀ buffer, markTag rules p s { scan with buffer := buffer } =
      { markTag rules p s scan with buffer := buffer } := by
  unfold markTag
  cases hitRule rules (if s.head? = some '/' then s.tail else s) with
  | none => exact ⟨rfl, rfl, rfl, fun _ => rfl⟩
  | some rule =>
      obtain ⟨hskip, hin, hversion, -, hbuffer⟩ := @apply_frame
        { scan with inTag := false, tagBegin := p + 1 } (p + 1 + s.length) rule
        (s.head? = some '/')
      exact ⟨hskip, hin, hversion, hbuffer⟩

theorem valueTag_marked (hrules : ∀ rule ∈ rules, '\x00' ∉ rule.name) (hlen : 2 ≤ s.length) :
    valueTag strncmp rules { scan with
        buffer := pre ++ '<' :: (s ++ '\x00' :: post)
        inTag := false
        tagBegin := pre.length + 1 } (pre.length + 1 + s.length) =
      some { markTag rules pre.length s scan with
        buffer := pre ++ '<' :: (s ++ '\x00' :: post) } := by
  have hdrop : (pre ++ '<' :: (s ++ '\x00' :: post)).drop (pre.length + 1) = s ++ '\x00' :: post :=
    @drop_front _ (pre ++ ['<']) _ 0 _ (by simp) (by simp)
  rw [← markTag_frame.2.2.2]
  cases s with
  | nil => simp at hlen
  | cons first s =>
      have hfirst : (pre ++ '<' :: (first :: s ++ '\x00' :: post))[pre.length + 1]? =
          some first := by
        rw [← List.head?_drop, hdrop]
        rfl
      simp only [valueTag, hfirst, Option.bind_eq_bind, Option.bind_some, decide_eq_true_eq]
      by_cases hslash : first = '/'
      · have hrest : (pre ++ '<' :: (first :: s ++ '\x00' :: post)).drop (pre.length + 1 + 1) =
            s ++ '\x00' :: post := by
          rw [← List.drop_drop, hdrop]
          rfl
        simp only [if_pos hslash, hrest, firstHit_eq hrules, Option.bind_some, markTag,
          List.head?_cons, Option.some.injEq, List.tail_cons]
        rfl
      · simp only [if_neg hslash, hdrop, firstHit_eq hrules, Option.bind_some, markTag,
          List.head?_cons, Option.some.injEq]
        rfl

theorem markAll_frame (buffer : List Char) : markAll rules p pieces { scan with buffer := buffer } =
    { markAll rules p pieces scan with buffer := buffer } := by
  induction pieces generalizing scan p with
  | nil => rfl
  | cons piece rest ih =>
      cases piece with
      | text s => exact ih
      | tag s =>
          rw [markAll, markTag_frame.2.2.2, ih]
          rfl

theorem markTag_opening {rule : TagRule} (hhead : s.head? ≠ some '/')
    (hit : hitRule rules s = some rule)
    (hfirst : rule.firstOnly = true → scan.begins rule.name = 0) :
    markTag rules p s scan = { scan with
      inTag := false
      tagBegin := p + 1
      begins := Function.update scan.begins rule.name
        (rule.opening (p + 1) (p + 1 + s.length)) } := by
  have hkeep : ¬ (rule.firstOnly = true ∧ scan.begins rule.name ≠ 0) := fun h => h.2 (hfirst h.1)
  simp only [markTag, if_neg hhead, hit, TagRule.apply, decide_eq_true_eq, if_neg hkeep]

theorem markTag_closing {rule : TagRule} (hit : hitRule rules s = some rule) :
    markTag rules p ('/' :: s) scan = { scan with
      inTag := false
      tagBegin := p + 1
      ends := Function.update scan.ends rule.name
        (rule.closing (p + 1) (p + 1 + (s.length + 1))) } := by
  simp [markTag, hit, TagRule.apply]

theorem markTag_other (hhead : s.head? = some '/') (hit : hitRule rules s.tail = none) :
    markTag rules p s scan = { scan with
      inTag := false
      tagBegin := p + 1 } := by
  simp [markTag, hit, hhead]

theorem scanFrom_pieces (hrules : ∀ rule ∈ rules, '\x00' ∉ rule.name) (hskip : scan.skip = false)
    (hclean : ∀ piece ∈ pieces, Piece.Clean piece) (hversion : scan.versionBegin ≠ 0)
    (hbuf : scan.buffer = pre ++ (renderAll pieces ++ post)) :
    scanFrom (valueTag strncmp rules) scan pre.length (renderAll pieces).length =
      some { markAll rules pre.length pieces scan with
        buffer := pre ++ (markedAll pieces ++ post) } := by
  induction pieces generalizing scan pre with
  | nil =>
      rw [markAll, ← show scan.buffer = pre ++ (markedAll [] ++ post) from hbuf]
      rfl
  | cons piece rest ih =>
      have hrest := fun piece' h => hclean piece' (List.mem_cons_of_mem piece h)
      have hmarked : ∀ tail : List Char, pre ++ (markedAll (piece :: rest) ++ tail) =
          (pre ++ piece.marked) ++ (markedAll rest ++ tail) := by simp
      have hpos : pre.length + piece.render.length = (pre ++ piece.marked).length := by
        rw [List.length_append, length_marked]
      rw [renderAll_cons, List.append_assoc] at hbuf
      rw [renderAll_cons, List.length_append, scanFrom_add, hpos, hmarked]
      cases piece with
      | text s =>
          have hpass := @scanFrom_plain (valueTag strncmp rules) scan pre s _ hskip hbuf
            (hclean _ List.mem_cons_self) hversion
          have hbuf' : scan.buffer = (pre ++ s) ++ (renderAll rest ++ post) := by
            rw [hbuf, List.append_assoc]
            rfl
          rw [Piece.render, hpass, Option.bind_some, markAll, ← List.length_append]
          exact ih hskip hrest hversion hbuf'
      | tag s =>
          obtain ⟨hlen, hs⟩ := hclean _ List.mem_cons_self
          have htag := @scanFrom_tag (valueTag strncmp rules) scan pre s (renderAll rest ++ post)
            hskip hlen (fun c hc => ⟨(hs c hc).1, (hs c hc).2.1⟩) hversion
            (by rw [hbuf]; simp [Piece.render])
          have hrender : (Piece.tag s).render.length = s.length + 2 := by simp [Piece.render]
          obtain ⟨hskip', -, hversion', -⟩ := @markTag_frame scan pre.length s rules
          have hnext := @ih { markTag rules pre.length s scan with
            buffer := pre ++ '<' :: (s ++ '\x00' :: (renderAll rest ++ post)) }
            (pre ++ (Piece.tag s).marked) (hskip'.trans hskip) hrest
            (by rw [hversion']; exact hversion) (by simp [Piece.marked])
          rw [hrender, htag, valueTag_marked hrules hlen, Option.bind_some, hnext, markAll_frame,
            markAll, ← hpos, hrender]

end Scan

/-- The pieces of a connect message behind its first tag. -/
def cmPieces (df ct dst rdata port ac : List Char) : List Piece :=
  [.tag "df".toList, .text df, .tag ('/' :: "df".toList), .tag "ct".toList, .text ct,
    .tag ('/' :: "ct".toList), .tag ("dst ".toList ++ dst), .tag ('/' :: "dst".toList),
    .tag ("rdata ".toList ++ rdata), .tag ('/' :: "rdata".toList), .tag "port".toList, .text port,
    .tag ('/' :: "port".toList), .tag "ac".toList, .text ac, .tag ('/' :: "ac".toList),
    .tag "/cm".toList]

/-- The pieces of a connect response message behind its first tag. -/
def crmPieces (cs text rdata params : List Char) : List Piece :=
  [.tag ("cs ".toList ++ cs), .text text, .tag ('/' :: "cs".toList),
    .tag ("rdata ".toList ++ rdata), .tag ('/' :: "rdata".toList), .tag "params".toList,
    .text params, .tag ('/' :: "params".toList),
    .tag "/crm".toList]

section Marks
variable {scan : TagScan}

theorem cm_marks {df ct dst rdata port ac : List Char} {scan : TagScan}
    (hscan : scan.begins = fun _ => 0) :
    let out := markAll cmRules 18 (cmPieces df ct dst rdata port ac) scan
    let ctBegin := 22 + df.length + 9
    let dstBegin := ctBegin + ct.length + 6
    let rdataBegin := dstBegin + (dst.length + 4) + 8
    let portBegin := rdataBegin + (rdata.length + 6) + 15
    let acBegin := portBegin + port.length + 11
    (out.begins "df".toList = 22 ∧ out.ends "df".toList = wordSub (22 + df.length + 4) 4) ∧
    (out.begins "ct".toList = ctBegin ∧
      out.ends "ct".toList = wordSub (ctBegin + ct.length + 4) 4) ∧
    (out.begins "dst".toList = dstBegin ∧
      out.ends "dst".toList = wordSub (dstBegin + (dst.length + 4) + 6) 5) ∧
    (out.begins "rdata".toList = rdataBegin ∧
      out.ends "rdata".toList = wordSub (rdataBegin + (rdata.length + 6) + 8) 7) ∧
    (out.begins "port".toList = portBegin ∧
      out.ends "port".toList = wordSub (portBegin + port.length + 6) 6) ∧
    (out.begins "ac".toList = acBegin ∧
      out.ends "ac".toList = wordSub (acBegin + ac.length + 4) 4) := by
  have hopen : ∀ (name : String) (rule : TagRule) (s : List Char) (p : ℕ) (scan : TagScan),
      s.head? ≠ some '/' → hitRule cmRules s = some rule → rule.name = name.toList →
      scan.begins name.toList = 0 → markTag cmRules p s scan =
      { scan with
        inTag := false
        tagBegin := p + 1
        begins := Function.update scan.begins name.toList
          (rule.opening (p + 1) (p + 1 + s.length)) } := by
    intro name rule s p scan hhead hit hname hbegin
    rw [markTag_opening hhead hit (fun _ => hname ▸ hbegin), hname]
  have hdf := fun p scan => hopen "df" (behindTag "df" 4) "df".toList p scan (by decide) rfl rfl
  have hct := fun p scan => hopen "ct" (behindTag "ct" 4) "ct".toList p scan (by decide) rfl rfl
  have hport := fun p scan =>
    hopen "port" (behindTag "port" 6) "port".toList p scan (by decide) rfl rfl
  have hac := fun p scan => hopen "ac" (behindTag "ac" 4) "ac".toList p scan (by decide) rfl rfl
  have hdst := fun p scan =>
    hopen "dst" (insideTag "dst" 0 5) ("dst ".toList ++ dst) p scan (by simp) rfl rfl
  have hrdata := fun p scan =>
    hopen "rdata" (insideTag "rdata" 0 7) ("rdata ".toList ++ rdata) p scan (by simp) rfl rfl
  have hdf' := fun p scan => @markTag_closing p scan "df".toList cmRules (behindTag "df" 4) rfl
  have hct' := fun p scan => @markTag_closing p scan "ct".toList cmRules (behindTag "ct" 4) rfl
  have hport' := fun p scan =>
    @markTag_closing p scan "port".toList cmRules (behindTag "port" 6) rfl
  have hac' := fun p scan => @markTag_closing p scan "ac".toList cmRules (behindTag "ac" 4) rfl
  have hdst' := fun p scan =>
    @markTag_closing p scan "dst".toList cmRules (insideTag "dst" 0 5) rfl
  have hrdata' := fun p scan =>
    @markTag_closing p scan "rdata".toList cmRules (insideTag "rdata" 0 7) rfl
  have hcm := fun p scan => @markTag_other p scan "/cm".toList cmRules (by decide) rfl
  have hlen₁ : "df".toList.length = 2 := rfl
  have hlen₂ : "ct".toList.length = 2 := rfl
  have hlen₃ : "ac".toList.length = 2 := rfl
  have hlen₄ : "dst".toList.length = 3 := rfl
  have hlen₅ : "dst ".toList.length = 4 := rfl
  have hlen₆ : "port".toList.length = 4 := rfl
  have hlen₇ : "rdata".toList.length = 5 := rfl
  have hlen₈ : "rdata ".toList.length = 6 := rfl
  simp only [cmPieces, markAll]
  rw [hdf, hdf', hct, hct', hdst, hdst', hrdata, hrdata', hport, hport', hac, hac', hcm]
  · simp only [Function.update_apply, String.toList_inj, String.reduceEq, if_false, if_true,
      behindTag, insideTag]
    simp only [List.length_cons, List.length_append, hlen₁, hlen₂, hlen₃, hlen₄, hlen₅, hlen₆,
      hlen₇, hlen₈]
    refine ⟨⟨?_, ?_⟩, ⟨?_, ?_⟩, ⟨?_, ?_⟩, ⟨?_, ?_⟩, ⟨?_, ?_⟩, ?_, ?_⟩
    all_goals first | exact True.intro | omega | exact congrArg₂ wordSub (by omega) rfl
  all_goals simp [hscan]

theorem crm_marks {cs text rdata params : List Char} {scan : TagScan}
    (hscan : scan.begins = fun _ => 0) :
    let out := markAll crmRules 19 (crmPieces cs text rdata params) scan
    let rdataBegin := 23 + (cs.length + 1) + text.length + 12
    let paramsBegin := rdataBegin + (rdata.length + 1) + 16
    (out.begins "cs".toList = 23 ∧
      out.ends "cs".toList = wordSub (23 + (cs.length + 1) + text.length + 4) 5) ∧
    (out.begins "rdata".toList = rdataBegin ∧
      out.ends "rdata".toList = wordSub (rdataBegin + (rdata.length + 1) + 7) 8) ∧
    (out.begins "params".toList = paramsBegin ∧
      out.ends "params".toList = wordSub (paramsBegin + params.length + 8) 9) := by
  have hopen : ∀ (name : String) (rule : TagRule) (s : List Char) (p : ℕ) (scan : TagScan),
      s.head? ≠ some '/' → hitRule crmRules s = some rule → rule.name = name.toList →
      scan.begins name.toList = 0 → markTag crmRules p s scan =
      { scan with
        inTag := false
        tagBegin := p + 1
        begins := Function.update scan.begins name.toList
          (rule.opening (p + 1) (p + 1 + s.length)) } := by
    intro name rule s p scan hhead hit hname hbegin
    rw [markTag_opening hhead hit (fun _ => hname ▸ hbegin), hname]
  have hcs := fun p scan =>
    hopen "cs" (insideTag "cs" 3 5) ("cs ".toList ++ cs) p scan (by simp) rfl rfl
  have hrdata := fun p scan =>
    hopen "rdata" (insideTag "rdata" 6 8) ("rdata ".toList ++ rdata) p scan (by simp) rfl rfl
  have hparams := fun p scan =>
    hopen "params" (insideTag "params" 7 9) "params".toList p scan (by decide) rfl rfl
  have hcs' := fun p scan => @markTag_closing p scan "cs".toList crmRules (insideTag "cs" 3 5) rfl
  have hrdata' := fun p scan =>
    @markTag_closing p scan "rdata".toList crmRules (insideTag "rdata" 6 8) rfl
  have hparams' := fun p scan =>
    @markTag_closing p scan "params".toList crmRules (insideTag "params" 7 9) rfl
  have hcrm := fun p scan => @markTag_other p scan "/crm".toList crmRules (by decide) rfl
  have hlen₁ : "cs".toList.length = 2 := rfl
  have hlen₂ : "cs ".toList.length = 3 := rfl
  have hlen₃ : "rdata".toList.length = 5 := rfl
  have hlen₄ : "rdata ".toList.length = 6 := rfl
  have hlen₅ : "params".toList.length = 6 := rfl
  simp only [crmPieces, markAll]
  rw [hcs, hcs', hrdata, hrdata', hparams, hparams', hcrm]
  · simp only [Function.update_apply, String.toList_inj, String.reduceEq, if_false, if_true,
      insideTag]
    simp only [List.length_cons, List.length_append, hlen₁, hlen₂, hlen₃, hlen₄, hlen₅]
    refine ⟨⟨?_, ?_⟩, ⟨?_, ?_⟩, ?_, ?_⟩
    all_goals first | exact True.intro | omega | exact congrArg₂ wordSub (by omega) rfl
  all_goals simp [hscan]

end Marks

section Reading
variable {buffer marked front v after : List Char} {k fin : ℕ} {pieces : List Piece}

theorem wordSub_eq {a b : ℕ} (h : b ≤ a) (ha : a < 2 ^ 64) : wordSub a b = a - b := by
  have heq : a + 2 ^ 64 - b = (a - b) + 2 ^ 64 := by omega
  rw [wordSub, heq, Nat.add_mod_right, Nat.mod_eq_of_lt (by omega)]

theorem stringAt_append (hv : '\x00' ∉ v) : stringAt (v ++ '\x00' :: after) = some v := by
  induction v with
  | nil => simp [stringAt]
  | cons c v ih =>
      obtain ⟨hc, hv⟩ := not_or.mp (mt List.mem_cons.mpr hv)
      rw [List.cons_append, stringAt, if_neg (Ne.symm hc), ih hv, Option.map_some]

theorem beforeQuote_append (hv : '\x00' ∉ v) (hv' : '"' ∉ v) :
    beforeQuote (v ++ '"' :: after) = some (some v) := by
  induction v with
  | nil => simp [beforeQuote]
  | cons c v ih =>
      obtain ⟨hc, hv⟩ := not_or.mp (mt List.mem_cons.mpr hv)
      obtain ⟨hc', hv'⟩ := not_or.mp (mt List.mem_cons.mpr hv')
      rw [List.cons_append, beforeQuote, if_neg (Ne.symm hc'), if_neg (Ne.symm hc), ih hv hv',
        Option.map_some, Option.map_some]

/-- A value in front of a closing tag is read whole, whatever was read before. -/
theorem exists_readText (hterm : Terminated buffer (front ++ (v ++ '<' :: after)))
    (hv : ∀ c ∈ v, c ≠ '<' ∧ c ≠ '\x00') (hpos : 0 < front.length) :
    ∃ buffer', readText buffer front.length (front.length + v.length) = some (some v, buffer') ∧
      Terminated buffer' (front ++ (v ++ '<' :: after)) := by
  obtain ⟨front', c, after', rfl, hlen, hfront, hafter⟩ := hterm.split hv
  have hset : setNull (front' ++ (v ++ c :: after')) (front.length + v.length) =
      some (front' ++ (v ++ '\x00' :: after')) := by
    rw [setNull, if_pos (by simp [hlen]), ← hlen, List.set_append_right _ _ (by omega),
      Nat.add_sub_cancel_left, List.set_append_right _ _ le_rfl, Nat.sub_self, List.set_cons_zero]
  have hdrop : (front' ++ (v ++ '\x00' :: after')).drop front.length = v ++ '\x00' :: after' := by
    rw [← hlen, List.drop_left]
  refine ⟨front' ++ (v ++ '\x00' :: after'), ?_, List.rel_append hfront
    (List.rel_append Terminated.refl (List.Forall₂.cons (.inr ⟨rfl, .inl rfl⟩) hafter))⟩
  rw [readText, if_pos ⟨hpos, Nat.le_add_right _ _⟩, hset, Option.bind_eq_bind, Option.bind_some,
    hdrop, stringAt_append fun h => (hv _ h).2 rfl]
  rfl

/-- The version is read, and the buffer does not change when it ends with a terminator. -/
theorem clXmlParseVersion_eq (hterm : Terminated buffer (front ++ (v ++ '"' :: after)))
    (hlast : (front ++ (v ++ '"' :: after)).getLast? = some '\x00')
    (hv : ∀ c ∈ v, c ≠ '<' ∧ c ≠ '\x00') (hv' : '"' ∉ v) (hpos : 0 < front.length)
    (hlen : (front ++ (v ++ '"' :: after)).length < 2 ^ 64) :
    clXmlParseVersion buffer front.length = some (some v, buffer) := by
  have hlength := hterm.length_eq
  have hsize : front.length < (front ++ (v ++ '"' :: after)).length := by simp
  have hnull : ∀ h : buffer.length - 1 < buffer.length, buffer[buffer.length - 1] = '\x00' := by
    intro h
    rw [List.getLast?_eq_getElem?] at hlast
    obtain ⟨hlt, heq⟩ := List.getElem?_eq_some_iff.mp hlast
    have hrel := (List.forall₂_iff_get.mp hterm).2 (buffer.length - 1) h (by omega)
    have heq' : (front ++ (v ++ '"' :: after)).get ⟨buffer.length - 1, by omega⟩ = '\x00' := by
      rw [← heq]
      simp only [List.get_eq_getElem, hlength]
    rw [heq'] at hrel
    exact hrel.elim id fun h => h.1
  have hquoted : ∀ c ∈ v ++ ['"'], c ≠ '<' ∧ c ≠ '\x00' := by
    intro c hc
    rcases List.mem_append.mp hc with hc | hc
    · exact hv c hc
    · rw [List.mem_singleton.mp hc]
      decide
  have hset : setNull buffer (front.length + wordSub (wordSub buffer.length front.length) 1) =
      some buffer := by
    rw [@wordSub_eq buffer.length front.length (by omega) (by omega),
      wordSub_eq (by omega) (by omega), setNull,
      if_pos (by omega), show front.length + (buffer.length - front.length - 1) =
        buffer.length - 1 by omega]
    have hlt : buffer.length - 1 < buffer.length := by omega
    conv_rhs => rw [← List.set_getElem_self hlt, hnull hlt]
  have hread : beforeQuote (buffer.drop front.length) = some (some v) := by
    have hdrop := List.forall₂_drop_append _ _ _ hterm
    have htake := List.forall₂_take_append _ (v ++ ['"']) after
      (by rwa [List.append_assoc] : Terminated (buffer.drop front.length) ((v ++ ['"']) ++ after))
    rw [← List.take_append_drop (v ++ ['"']).length (buffer.drop front.length),
      eq_of_terminated hquoted htake, List.append_assoc]
    exact beforeQuote_append (fun h => (hv _ h).2 rfl) hv'
  rw [clXmlParseVersion, if_pos hpos]
  simp only [hset, Option.bind_eq_bind, Option.bind_some, hread]
  rfl

end Reading

section Messages

/-- `CL_CONNECT_MESSAGE`. -/
def clConnectMessage (version df ct : List Char) (dst rdata : ClComEndpoint) (port : ℕ)
    (ac : List Char) : List Char :=
  "<cm version=\"".toList ++ version ++ "\"><df>".toList ++ df ++ "</df><ct>".toList ++ ct ++
    "</ct><dst host=\"".toList ++ dst.compHost ++ "\" comp=\"".toList ++ dst.compName ++
    "\" id=\"".toList ++ formatLd dst.compId ++ "\"></dst><rdata host=\"".toList ++
    rdata.compHost ++ "\" comp=\"".toList ++ rdata.compName ++ "\" id=\"".toList ++
    formatLd rdata.compId ++ "\"></rdata><port>".toList ++ formatLd port ++
    "</port><ac>".toList ++ ac ++ "</ac></cm>".toList

/-- `CL_CONNECT_MESSAGE_VERSION`. -/
def clConnectMessageVersion : List Char := "0.4".toList

/-- `CL_CONNECT_RESPONSE_MESSAGE`. -/
def clConnectResponseMessage (version condition text : List Char) (rdata : ClComEndpoint)
    (params : List Char) : List Char :=
  "<crm version=\"".toList ++ version ++ "\"><cs condition=\"".toList ++ condition ++
    "\">".toList ++ text ++ "</cs><rdata host=\"".toList ++ rdata.compHost ++
    "\" comp=\"".toList ++ rdata.compName ++ "\" id=\"".toList ++ formatLd rdata.compId ++
    "\"></rdata><params>".toList ++ params ++ "</params></crm>".toList

/-- `CL_CONNECT_RESPONSE_MESSAGE_VERSION`. -/
def clConnectResponseMessageVersion : List Char := "0.3".toList

/-- The `format_type` of a connect message. -/
def formatType : ClXmlDataFormat → List Char
  | .undefined => []
  | .bin => "bin".toList
  | .xml => "xml".toList

/-- The `flow_type` of a connect message. -/
def flowType : ClXmlConnectionType → List Char
  | .undefined => []
  | .stream => "stream".toList
  | .message => "message".toList

/-- The `autoclose` of a connect message. -/
def autocloseType : ClXmlConnectionAutoclose → List Char
  | .undefined => []
  | .enabled => "enabled".toList
  | .disabled => "disabled".toList

/-- The `connection_status` of a connect response message. -/
def connectionStatus : ClXmlConnectionStatus → List Char
  | .undefined => []
  | .connected => "connected".toList
  | .denied => "access denied".toList
  | .endpointNotUnique => "endpoint not unique".toList
  | .unsupported => "unsupported data format".toList

/-- The two messages of the handshake. -/
inductive HandshakeMessage
  | cm (df : ClXmlDataFormat) (ct : ClXmlConnectionType) (ac : ClXmlConnectionAutoclose) (port : ℕ)
      (dst rdata : ClComEndpoint)
  | crm (csCondition : ClXmlConnectionStatus) (csText : List Char) (rdata : ClComEndpoint)
      (params : List Char)
deriving DecidableEq, Repr

/-- Names without quotes and brackets, and an id that prints as a positive number. -/
structure ClComEndpoint.Plain (endpoint : ClComEndpoint) : Prop where
  host : ∀ c ∈ endpoint.compHost, c ≠ '"' ∧ c ≠ '<' ∧ c ≠ '>' ∧ c ≠ '\x00'
  name : ∀ c ∈ endpoint.compName, c ≠ '"' ∧ c ≠ '<' ∧ c ≠ '>' ∧ c ≠ '\x00'
  id : endpoint.compId < 2 ^ 63

namespace HandshakeMessage

def text : HandshakeMessage → List Char
  | .cm df ct ac port dst rdata => clConnectMessage clConnectMessageVersion (formatType df)
      (flowType ct) dst rdata port (autocloseType ac)
  | .crm csCondition csText rdata params => clConnectResponseMessage
      clConnectResponseMessageVersion (connectionStatus csCondition) csText rdata params

/-- Values that a message can have. Its length is a word. -/
def Valid (message : HandshakeMessage) : Prop :=
  message.text.length < 2 ^ 64 ∧
  match message with
  | .cm df ct ac port dst rdata => df ≠ .undefined ∧ ct ≠ .undefined ∧ ac ≠ .undefined ∧
      port < 2 ^ 63 ∧ dst.Plain ∧ rdata.Plain
  | .crm csCondition csText rdata params => csCondition ≠ .undefined ∧
      (∀ c ∈ csText, c ≠ '<' ∧ c ≠ '>' ∧ c ≠ '\x00') ∧ rdata.Plain ∧
      ∀ c ∈ params, c ≠ '<' ∧ c ≠ '>' ∧ c ≠ '\x00'

/-- The parser returns the values from which the message was made. -/
def Survives (message : HandshakeMessage) : Prop :=
  match message with
  | .cm df ct ac port dst rdata => clXmlParseCm message.text =
      some (.ok, ⟨some clConnectMessageVersion, df, ct, ac, port, some dst, some rdata⟩)
  | .crm csCondition csText rdata params => clXmlParseCrm message.text =
      some ⟨some clConnectResponseMessageVersion, csCondition, some csText,
        "not supported".toList, some rdata, if params = [] then none else some params⟩

/-- The endpoints fit, and so do the status text and the parameters. -/
def Unharmed : HandshakeMessage → Prop
  | .cm _ _ _ _ dst rdata => dst.Fits ∧ rdata.Fits
  | .crm _ csText rdata params => csText.length ≤ 254 ∧ rdata.Fits ∧ params.length ≤ 254

end HandshakeMessage

def ClComEndpoint.attributes (endpoint : ClComEndpoint) : List Char :=
  CheckedBuffer.attributes [] endpoint.compHost endpoint.compName (formatLd endpoint.compId)

set_option maxRecDepth 2000 in
theorem clConnectMessage_eq {df ct ac : List Char} {dst rdata : ClComEndpoint} {port : ℕ} :
    clConnectMessage clConnectMessageVersion df ct dst rdata port ac =
      "<cm version=\"0.4\">".toList ++
        renderAll (cmPieces df ct dst.attributes rdata.attributes (formatLd port) ac) := by
  unfold clConnectMessage ClComEndpoint.attributes
  generalize formatLd port = port', formatLd dst.compId = id, formatLd rdata.compId = id'
  simp [clConnectMessageVersion, cmPieces, renderAll, Piece.render, attributes]

set_option maxRecDepth 2000 in
theorem clConnectResponseMessage_eq {condition text params : List Char} {rdata : ClComEndpoint} :
    clConnectResponseMessage clConnectResponseMessageVersion condition text rdata params =
      "<crm version=\"0.3\">".toList ++ renderAll (crmPieces
        ("condition=".toList ++ '"' :: (condition ++ ['"'])) text rdata.attributes params) := by
  unfold clConnectResponseMessage ClComEndpoint.attributes
  generalize formatLd rdata.compId = id
  simp [clConnectResponseMessageVersion, crmPieces, renderAll, Piece.render, attributes]

set_option maxRecDepth 4000 in
theorem scanFrom_cm (post : List Char) :
    scanFrom (valueTag strncmp cmRules) (.init ("<cm version=\"0.4\">".toList ++ post)) 0 18 =
      some { TagScan.init ("<cm version=\"0.4\"\x00".toList ++ post) with
        tagBegin := 1
        versionBegin := 13 } := rfl

set_option maxRecDepth 4000 in
theorem scanFrom_crm (post : List Char) :
    scanFrom (valueTag strncmp crmRules) (.init ("<crm version=\"0.3\">".toList ++ post)) 0 19 =
      some { TagScan.init ("<crm version=\"0.3\"\x00".toList ++ post) with
        tagBegin := 1
        versionBegin := 14 } := rfl

end Messages

section Places
variable {rules : List TagRule} {pieces : List Piece} {head marked buffer v s tail lead : List Char}
variable {scan : TagScan} {version k b j fin start : ℕ} {endpoint : ClComEndpoint}

theorem markAll_versionBegin {p : ℕ} :
    (markAll rules p pieces scan).versionBegin = scan.versionBegin := by
  induction pieces generalizing scan p with
  | nil => rfl
  | cons piece rest ih =>
      cases piece with
      | text s => exact ih
      | tag s => exact ih.trans markTag_frame.2.2.1

theorem scanBuffer_pieces {n : ℕ} (hrules : ∀ rule ∈ rules, '\x00' ∉ rule.name)
    (hhead : ∀ post, scanFrom (valueTag strncmp rules) (.init (head ++ post)) 0 n =
      some { TagScan.init (marked ++ post) with tagBegin := 1, versionBegin := version })
    (hn : head.length = n) (hlen : marked.length = n) (hversion : version ≠ 0)
    (hclean : ∀ piece ∈ pieces, Piece.Clean piece) :
    scanBuffer (valueTag strncmp rules) (head ++ renderAll pieces) =
      some { markAll rules n pieces { TagScan.init (marked ++ renderAll pieces) with
          tagBegin := 1
          versionBegin := version } with
        buffer := marked ++ markedAll pieces } := by
  have hscan := @scanFrom_pieces { TagScan.init (marked ++ renderAll pieces) with
      tagBegin := 1
      versionBegin := version } marked [] rules pieces hrules rfl hclean hversion
    (by rw [List.append_nil]; rfl)
  rw [List.append_nil, hlen] at hscan
  rw [scanBuffer, List.length_append, scanFrom_add, hn, hhead, Option.bind_some, Nat.zero_add,
    hscan]

theorem split_text (htext : pieces[k]? = some (.text v)) (htag : pieces[k + 1]? = some (.tag s)) :
    head ++ markedAll pieces = (head ++ markedAll (pieces.take k)) ++
      (v ++ '<' :: (s ++ '\x00' :: markedAll (pieces.drop (k + 2)))) := by
  obtain ⟨hk, hv⟩ := List.getElem?_eq_some_iff.mp htext
  obtain ⟨hk', hs⟩ := List.getElem?_eq_some_iff.mp htag
  conv_lhs => rw [← List.take_append_drop k pieces, List.drop_eq_getElem_cons hk,
    List.drop_eq_getElem_cons hk', hv, hs]
  simp [markedAll_append, Piece.marked]

theorem split_tag (htag : pieces[k]? = some (.tag s)) :
    head ++ markedAll pieces = (head ++ markedAll (pieces.take k) ++ ['<']) ++
      (s ++ '\x00' :: markedAll (pieces.drop (k + 1))) := by
  obtain ⟨hk, hs⟩ := List.getElem?_eq_some_iff.mp htag
  conv_lhs => rw [← List.take_append_drop k pieces, List.drop_eq_getElem_cons hk, hs]
  simp [markedAll_append, Piece.marked]

/-- The value between two tags is read whole, whatever was read before. -/
theorem exists_readText_at (htext : pieces[k]? = some (.text v))
    (htag : pieces[k + 1]? = some (.tag s)) (hterm : Terminated buffer (head ++ markedAll pieces))
    (hb : (head ++ markedAll (pieces.take k)).length = b) (hpos : 0 < b)
    (hfin : fin = wordSub (b + v.length + j) j) (hlen : b + v.length + j < 2 ^ 64)
    (hv : ∀ c ∈ v, c ≠ '<' ∧ c ≠ '\x00') :
    ∃ buffer', readText buffer b fin = some (some v, buffer') ∧
      Terminated buffer' (head ++ markedAll pieces) := by
  subst hb hfin
  rw [wordSub_eq (by omega) hlen, Nat.add_sub_cancel]
  rw [split_text htext htag] at hterm ⊢
  exact exists_readText hterm hv hpos

theorem attributes_lead {host name digits : List Char} :
    attributes lead host name digits = lead ++ attributes [] host name digits := by
  simp [attributes]

/-- The attributes of an endpoint are read back exactly when it fits. -/
theorem readEndpoint_iff (hdrop : buffer.drop start = lead ++ endpoint.attributes ++ tail)
    (hfin : start + (lead ++ endpoint.attributes).length ≤ fin) (hpos : 0 < start)
    (hlead : '"' ∉ lead) (hplain : endpoint.Plain) :
    readEndpoint buffer start fin = some (some endpoint) ↔ endpoint.Fits := by
  rw [ClComEndpoint.attributes, ← attributes_lead] at hdrop hfin
  rw [readEndpoint, if_pos ⟨hpos, by omega⟩, Option.map_eq_some_iff]
  simp only [Option.some.injEq, exists_eq_right]
  exact readAttributes_iff hdrop (by omega) hlead (fun h => (hplain.host _ h).1 rfl)
    (fun h => (hplain.name _ h).1 rfl) (fun h => (hplain.host _ h).2.2.2 rfl)
    (fun h => (hplain.name _ h).2.2.2 rfl) hplain.id

theorem attributes_clean (hplain : endpoint.Plain) :
    ∀ c ∈ endpoint.attributes, c ≠ '<' ∧ c ≠ '>' ∧ c ≠ '\x00' := by
  intro c hc
  by_cases hhost : c ∈ endpoint.compHost
  · exact (hplain.host c hhost).2
  by_cases hname : c ∈ endpoint.compName
  · exact (hplain.name c hname).2
  by_cases hid : c ∈ formatLd endpoint.compId
  · have hdigit := isDigit_ne (formatLd_digits hplain.id c hid)
    exact ⟨hdigit.1, hdigit.2.1, hdigit.2.2.2⟩
  · have hquote : '"' ≠ '<' ∧ '"' ≠ '>' ∧ '"' ≠ '\x00' := by decide
    have hhostWord : ∀ c ∈ "host=".toList, c ≠ '<' ∧ c ≠ '>' ∧ c ≠ '\x00' :=
      forall_chars (by decide)
    have hcompWord : ∀ c ∈ " comp=".toList, c ≠ '<' ∧ c ≠ '>' ∧ c ≠ '\x00' :=
      forall_chars (by decide)
    have hidWord : ∀ c ∈ " id=".toList, c ≠ '<' ∧ c ≠ '>' ∧ c ≠ '\x00' :=
      forall_chars (by decide)
    rw [ClComEndpoint.attributes] at hc
    generalize formatLd endpoint.compId = digits at *
    simp only [attributes, List.mem_append, List.mem_cons, hhost, hname, hid, List.not_mem_nil,
      false_or, or_false] at hc
    rcases hc with hword | rfl | rfl | hword | rfl | rfl | hword | rfl | rfl
    · exact hhostWord c hword
    · exact hquote
    · exact hquote
    · exact hcompWord c hword
    · exact hquote
    · exact hquote
    · exact hidWord c hword
    · exact hquote
    · exact hquote

end Places

section Handshake
variable {df : ClXmlDataFormat} {ct : ClXmlConnectionType} {ac : ClXmlConnectionAutoclose}
variable {csCondition : ClXmlConnectionStatus} {csText params : List Char} {port : ℕ}
variable {dst rdata : ClComEndpoint} {message : HandshakeMessage}

theorem formatType_spec (h : df ≠ .undefined) : parsedDataFormat (formatType df) = df ∧
    ∀ c ∈ formatType df, c ≠ '<' ∧ c ≠ '>' ∧ c ≠ '\x00' := by
  cases df with
  | undefined => exact absurd rfl h
  | bin => exact ⟨rfl, forall_chars (by decide)⟩
  | xml => exact ⟨rfl, forall_chars (by decide)⟩

theorem flowType_spec (h : ct ≠ .undefined) : parsedConnectionType (flowType ct) = ct ∧
    ∀ c ∈ flowType ct, c ≠ '<' ∧ c ≠ '>' ∧ c ≠ '\x00' := by
  cases ct with
  | undefined => exact absurd rfl h
  | stream => exact ⟨rfl, forall_chars (by decide)⟩
  | message => exact ⟨rfl, forall_chars (by decide)⟩

theorem autocloseType_spec (h : ac ≠ .undefined) : parsedAutoclose (autocloseType ac) = ac ∧
    ∀ c ∈ autocloseType ac, c ≠ '<' ∧ c ≠ '>' ∧ c ≠ '\x00' := by
  cases ac with
  | undefined => exact absurd rfl h
  | enabled => exact ⟨rfl, forall_chars (by decide)⟩
  | disabled => exact ⟨rfl, forall_chars (by decide)⟩

theorem connectionStatus_spec (h : csCondition ≠ .undefined) :
    parsedStatus (connectionStatus csCondition) = csCondition ∧
      (connectionStatus csCondition).length ≤ 23 ∧
      ∀ c ∈ connectionStatus csCondition, c ≠ '<' ∧ c ≠ '>' ∧ c ≠ '\x00' ∧ c ≠ '"' := by
  cases csCondition with
  | undefined => exact absurd rfl h
  | connected => exact ⟨rfl, by decide, forall_chars (by decide)⟩
  | denied => exact ⟨rfl, by decide, forall_chars (by decide)⟩
  | endpointNotUnique => exact ⟨rfl, by decide, forall_chars (by decide)⟩
  | unsupported => exact ⟨rfl, by decide, forall_chars (by decide)⟩

theorem scanBuffer_cm {pieces : List Piece} (hclean : ∀ piece ∈ pieces, Piece.Clean piece) :
    scanBuffer (valueTag strncmp cmRules) ("<cm version=\"0.4\">".toList ++ renderAll pieces) =
      some { markAll cmRules 18 pieces
          { TagScan.init ("<cm version=\"0.4\"\x00".toList ++ renderAll pieces) with
            tagBegin := 1
            versionBegin := 13 } with
        buffer := "<cm version=\"0.4\"\x00".toList ++ markedAll pieces } :=
  scanBuffer_pieces (by decide) scanFrom_cm rfl rfl (by decide) hclean

theorem scanBuffer_crm {pieces : List Piece} (hclean : ∀ piece ∈ pieces, Piece.Clean piece) :
    scanBuffer (valueTag strncmp crmRules) ("<crm version=\"0.3\">".toList ++ renderAll pieces) =
      some { markAll crmRules 19 pieces
          { TagScan.init ("<crm version=\"0.3\"\x00".toList ++ renderAll pieces) with
            tagBegin := 1
            versionBegin := 14 } with
        buffer := "<crm version=\"0.3\"\x00".toList ++ markedAll pieces } :=
  scanBuffer_pieces (by decide) scanFrom_crm rfl rfl (by decide) hclean

instance : DecidablePred Piece.Clean
  | .tag content => @instDecidableAnd _ _ _ (List.decidableBAll _ content)
  | .text content => List.decidableBAll _ content

theorem cmPieces_clean {df ct dst rdata port ac : List Char}
    (hdf : ∀ c ∈ df, c ≠ '<' ∧ c ≠ '>') (hct : ∀ c ∈ ct, c ≠ '<' ∧ c ≠ '>')
    (hdst : ∀ c ∈ dst, c ≠ '<' ∧ c ≠ '>' ∧ c ≠ '\x00')
    (hrdata : ∀ c ∈ rdata, c ≠ '<' ∧ c ≠ '>' ∧ c ≠ '\x00')
    (hport : ∀ c ∈ port, c ≠ '<' ∧ c ≠ '>') (hac : ∀ c ∈ ac, c ≠ '<' ∧ c ≠ '>') :
    ∀ piece ∈ cmPieces df ct dst rdata port ac, Piece.Clean piece := by
  have hdst' : Piece.Clean (.tag ("dst ".toList ++ dst)) :=
    ⟨by simp, List.forall_mem_append.mpr ⟨forall_chars (by decide), hdst⟩⟩
  have hrdata' : Piece.Clean (.tag ("rdata ".toList ++ rdata)) :=
    ⟨by simp, List.forall_mem_append.mpr ⟨forall_chars (by decide), hrdata⟩⟩
  simp only [cmPieces, List.forall_mem_cons]
  exact ⟨by decide, hdf, by decide, by decide, hct, by decide, hdst', by decide, hrdata', by decide,
    by decide, hport, by decide, by decide, hac, by decide, by decide, by simp⟩

theorem crmPieces_clean {cs text rdata params : List Char}
    (hcs : ∀ c ∈ cs, c ≠ '<' ∧ c ≠ '>' ∧ c ≠ '\x00') (htext : ∀ c ∈ text, c ≠ '<' ∧ c ≠ '>')
    (hrdata : ∀ c ∈ rdata, c ≠ '<' ∧ c ≠ '>' ∧ c ≠ '\x00')
    (hparams : ∀ c ∈ params, c ≠ '<' ∧ c ≠ '>') :
    ∀ piece ∈ crmPieces cs text rdata params, Piece.Clean piece := by
  have hcs' : Piece.Clean (.tag ("cs ".toList ++ cs)) :=
    ⟨by simp, List.forall_mem_append.mpr ⟨forall_chars (by decide), hcs⟩⟩
  have hrdata' : Piece.Clean (.tag ("rdata ".toList ++ rdata)) :=
    ⟨by simp, List.forall_mem_append.mpr ⟨forall_chars (by decide), hrdata⟩⟩
  simp only [crmPieces, List.forall_mem_cons]
  exact ⟨hcs', htext, by decide, hrdata', by decide, by decide, hparams, by decide, by decide,
    by simp⟩

theorem length_cm {df ct dst rdata port ac : List Char} :
    ("<cm version=\"0.4\">".toList ++ renderAll (cmPieces df ct dst rdata port ac)).length =
      22 + df.length + 9 + ct.length + 6 + (dst.length + 4) + 8 + (rdata.length + 6) + 15 +
        port.length + 11 + ac.length + 10 := by
  simp [cmPieces, renderAll, Piece.render]
  omega

theorem cm_fronts {df ct dst rdata port ac : List Char} :
    let front := fun k => ("<cm version=\"0.4\"\x00".toList ++
      markedAll ((cmPieces df ct dst rdata port ac).take k)).length
    let ctBegin := 22 + df.length + 9
    let dstBegin := ctBegin + ct.length + 6
    let rdataBegin := dstBegin + (dst.length + 4) + 8
    let portBegin := rdataBegin + (rdata.length + 6) + 15
    front 1 = 22 ∧ front 4 = ctBegin ∧ front 6 + 1 = dstBegin ∧ front 8 + 1 = rdataBegin ∧
      front 11 = portBegin ∧ front 14 = portBegin + port.length + 11 := by
  simp only [cmPieces, List.take_succ_cons, List.take_zero]
  simp [markedAll, Piece.marked]
  omega

theorem length_markedCm {df ct dst rdata port ac : List Char} :
    ("<cm version=\"0.4\"\x00".toList ++ markedAll (cmPieces df ct dst rdata port ac)).length =
      22 + df.length + 9 + ct.length + 6 + (dst.length + 4) + 8 + (rdata.length + 6) + 15 +
        port.length + 11 + ac.length + 10 := by
  have hhead : "<cm version=\"0.4\"\x00".toList.length =
      "<cm version=\"0.4\">".toList.length := by decide
  rw [← length_cm, List.length_append, List.length_append, length_markedAll, hhead]

theorem getLast?_markedAll {head s : List Char} {pieces : List Piece} :
    (head ++ markedAll (pieces ++ [.tag s])).getLast? = some '\x00' := by
  have hmarked : markedAll [.tag s] = ('<' :: s) ++ ['\x00'] := by simp [markedAll, Piece.marked]
  rw [markedAll_append, hmarked, ← List.append_assoc, ← List.append_assoc, List.getLast?_concat]

theorem drop_tag {pieces : List Piece} {head buffer s : List Char} {k b : ℕ}
    (htag : pieces[k]? = some (.tag s)) (hterm : Terminated buffer (head ++ markedAll pieces))
    (hs : ∀ c ∈ s, c ≠ '<' ∧ c ≠ '\x00')
    (hb : (head ++ markedAll (pieces.take k)).length + 1 = b) :
    ∃ tail, buffer.drop b = s ++ tail := by
  rw [split_tag htag] at hterm
  obtain ⟨before, c, after, rfl, hlen, -, -⟩ := hterm.split hs
  have hbefore : b = before.length := by
    rw [hlen, ← hb, List.length_append, List.length_append, List.length_append,
      List.length_singleton]
  exact ⟨c :: after, by rw [hbefore, List.drop_left]⟩

/-- An endpoint is read back exactly when it fits, whatever was read before. -/
theorem readEndpoint_tag {pieces : List Piece} {head buffer lead : List Char} {k b m fin : ℕ}
    {endpoint : ClComEndpoint} (htag : pieces[k]? = some (.tag (lead ++ endpoint.attributes)))
    (hterm : Terminated buffer (head ++ markedAll pieces))
    (hb : (head ++ markedAll (pieces.take k)).length + 1 = b) (hm : m ≤ lead.length)
    (hlead : ∀ c ∈ lead, c ≠ '<' ∧ c ≠ '\x00' ∧ c ≠ '"')
    (hfin : b + (lead.length + endpoint.attributes.length) ≤ fin) (hplain : endpoint.Plain) :
    readEndpoint buffer (b + m) fin = some (some endpoint) ↔ endpoint.Fits := by
  obtain ⟨tail, htail⟩ := drop_tag htag hterm (List.forall_mem_append.mpr
    ⟨fun c hc => ⟨(hlead c hc).1, (hlead c hc).2.1⟩, fun c hc =>
      ⟨(attributes_clean hplain c hc).1, (attributes_clean hplain c hc).2.2⟩⟩) hb
  refine @readEndpoint_iff buffer tail (lead.drop m) fin (b + m) endpoint ?_ ?_ (by omega)
    (fun h => (hlead _ (List.mem_of_mem_drop h)).2.2 rfl) hplain
  · rw [← List.drop_drop, htail, List.append_assoc, List.drop_append_of_le_length hm,
      List.append_assoc]
  · rw [List.length_append, List.length_drop]
    omega

theorem clXmlParseCm_iff {scan : TagScan} {buffer b₁ b₂ b₃ b₄ df' ct' ac' port' v : List Char}
    (hscan : scanBuffer (valueTag strncmp cmRules) buffer = some scan)
    (h₁ : readText scan.buffer (scan.begins "df".toList) (scan.ends "df".toList) =
      some (some df', b₁))
    (h₂ : readText b₁ (scan.begins "ct".toList) (scan.ends "ct".toList) = some (some ct', b₂))
    (h₃ : readText b₂ (scan.begins "port".toList) (scan.ends "port".toList) =
      some (some port', b₃))
    (h₄ : readText b₃ (scan.begins "ac".toList) (scan.ends "ac".toList) = some (some ac', b₄))
    (hversion : clXmlParseVersion b₄ scan.versionBegin = some (some v, b₄))
    (hdf : parsedDataFormat df' = df) (hct : parsedConnectionType ct' = ct)
    (hac : parsedAutoclose ac' = ac) (hport : clUtilGetUlongValue port' = port)
    (hdf' : df ≠ .undefined) (hct' : ct ≠ .undefined) (hac' : ac ≠ .undefined) :
    clXmlParseCm buffer = some (.ok, ⟨some v, df, ct, ac, port, some dst, some rdata⟩) ↔
      readEndpoint b₄ (scan.begins "dst".toList) (scan.ends "dst".toList) = some (some dst) ∧
      readEndpoint b₄ (scan.begins "rdata".toList) (scan.ends "rdata".toList) =
        some (some rdata) := by
  rw [clXmlParseCm, hscan]
  simp only [Option.bind_eq_bind, Option.bind_some, h₁, h₂, h₃, h₄, hversion, Option.map_some,
    Option.getD_some, hdf, hct, hac, hport, hdf', hct', hac', reduceCtorEq, or_self, if_false]
  cases readEndpoint b₄ (scan.begins "rdata".toList) (scan.ends "rdata".toList) with
  | none => simp
  | some rdata' =>
      cases readEndpoint b₄ (scan.begins "dst".toList) (scan.ends "dst".toList) with
      | none => simp
      | some dst' =>
          simp only [Option.pure_def, Option.bind_some, Option.some.injEq, Prod.mk.injEq,
            ClComCm.mk.injEq, true_and]
          constructor
          · exact And.right
          · rintro ⟨rfl, rfl⟩
            simp

theorem clXmlParseCm_message (hlen : (clConnectMessage clConnectMessageVersion (formatType df)
      (flowType ct) dst rdata port (autocloseType ac)).length < 2 ^ 64)
    (hdf : df ≠ .undefined) (hct : ct ≠ .undefined) (hac : ac ≠ .undefined)
    (hport : port < 2 ^ 63) (hdst : dst.Plain) (hrdata : rdata.Plain) :
    clXmlParseCm (clConnectMessage clConnectMessageVersion (formatType df) (flowType ct) dst rdata
        port (autocloseType ac)) =
      some (.ok, ⟨some clConnectMessageVersion, df, ct, ac, port, some dst, some rdata⟩) ↔
    dst.Fits ∧ rdata.Fits := by
  obtain ⟨hdfParsed, hdfClean⟩ := formatType_spec hdf
  obtain ⟨hctParsed, hctClean⟩ := flowType_spec hct
  obtain ⟨hacParsed, hacClean⟩ := autocloseType_spec hac
  have hdigits : ∀ c ∈ formatLd port, c ≠ '<' ∧ c ≠ '>' ∧ c ≠ '\x00' := fun c hc =>
    have h := isDigit_ne (formatLd_digits hport c hc)
    ⟨h.1, h.2.1, h.2.2.2⟩
  have hportParsed := clUtilGetUlongValue_formatLd hport
  have hdstClean := attributes_clean hdst
  have hrdataClean := attributes_clean hrdata
  rw [clConnectMessage_eq, length_cm] at hlen
  rw [clConnectMessage_eq]
  generalize formatType df = df', flowType ct = ct', autocloseType ac = ac', formatLd port = port'
    at *
  have hlast : ("<cm version=\"0.4\"\x00".toList ++ markedAll (cmPieces df' ct' dst.attributes
      rdata.attributes port' ac')).getLast? = some '\x00' :=
    @getLast?_markedAll _ _ ((cmPieces df' ct' dst.attributes rdata.attributes port' ac').take 16)
  have hclean := @cmPieces_clean df' ct' dst.attributes rdata.attributes port' ac'
    (fun c hc => ⟨(hdfClean c hc).1, (hdfClean c hc).2.1⟩)
    (fun c hc => ⟨(hctClean c hc).1, (hctClean c hc).2.1⟩) hdstClean hrdataClean
    (fun c hc => ⟨(hdigits c hc).1, (hdigits c hc).2.1⟩)
    (fun c hc => ⟨(hacClean c hc).1, (hacClean c hc).2.1⟩)
  have hmarks := @cm_marks df' ct' dst.attributes rdata.attributes port' ac'
    { TagScan.init ("<cm version=\"0.4\"\x00".toList ++
        renderAll (cmPieces df' ct' dst.attributes rdata.attributes port' ac')) with
      tagBegin := 1
      versionBegin := 13 } rfl
  have hbegin := @markAll_versionBegin cmRules
    (cmPieces df' ct' dst.attributes rdata.attributes port' ac')
    { TagScan.init ("<cm version=\"0.4\"\x00".toList ++
        renderAll (cmPieces df' ct' dst.attributes rdata.attributes port' ac')) with
      tagBegin := 1
      versionBegin := 13 } 18
  have hscan := scanBuffer_cm hclean
  generalize markAll cmRules 18 (cmPieces df' ct' dst.attributes rdata.attributes port' ac') _ =
    out at hmarks hbegin hscan
  replace hbegin : out.versionBegin = 13 := hbegin
  obtain ⟨⟨hb₁, he₁⟩, ⟨hb₂, he₂⟩, ⟨hb₃, he₃⟩, ⟨hb₄, he₄⟩, ⟨hb₅, he₅⟩, hb₆, he₆⟩ := hmarks
  obtain ⟨hf₁, hf₂, hf₃, hf₄, hf₅, hf₆⟩ :=
    @cm_fronts df' ct' dst.attributes rdata.attributes port' ac'
  have hsize := length_markedCm.trans_lt hlen
  obtain ⟨buffer₁, hread₁, hterm₁⟩ := @exists_readText_at
    (cmPieces df' ct' dst.attributes rdata.attributes port' ac') _ _ df' _ 1 _ 4 _ rfl rfl
    Terminated.refl (hf₁.trans hb₁.symm) (by omega) (he₁.trans (by rw [hb₁])) (by omega)
    (fun c hc => ⟨(hdfClean c hc).1, (hdfClean c hc).2.2⟩)
  obtain ⟨buffer₂, hread₂, hterm₂⟩ := @exists_readText_at
    (cmPieces df' ct' dst.attributes rdata.attributes port' ac') _ buffer₁ ct' _ 4 _ 4 _ rfl rfl
    hterm₁ (hf₂.trans hb₂.symm) (by omega) (he₂.trans (by rw [hb₂])) (by omega)
    (fun c hc => ⟨(hctClean c hc).1, (hctClean c hc).2.2⟩)
  obtain ⟨buffer₃, hread₃, hterm₃⟩ := @exists_readText_at
    (cmPieces df' ct' dst.attributes rdata.attributes port' ac') _ buffer₂ port' _ 11 _ 6 _ rfl rfl
    hterm₂ (hf₅.trans hb₅.symm) (by omega) (he₅.trans (by rw [hb₅])) (by omega)
    (fun c hc => ⟨(hdigits c hc).1, (hdigits c hc).2.2⟩)
  obtain ⟨buffer₄, hread₄, hterm₄⟩ := @exists_readText_at
    (cmPieces df' ct' dst.attributes rdata.attributes port' ac') _ buffer₃ ac' _ 14 _ 4 _ rfl rfl
    hterm₃ (hf₆.trans hb₆.symm) (by omega) (he₆.trans (by rw [hb₆])) (by omega)
    (fun c hc => ⟨(hacClean c hc).1, (hacClean c hc).2.2⟩)
  have hversion : clXmlParseVersion buffer₄ 13 = some (some "0.4".toList, buffer₄) :=
    @clXmlParseVersion_eq buffer₄ "<cm version=\"".toList "0.4".toList
      ('\x00' :: markedAll (cmPieces df' ct' dst.attributes rdata.attributes port' ac')) hterm₄
      hlast (forall_chars (by decide)) (by decide) (by decide) hsize
  have hrdataRead := @readEndpoint_tag
    (cmPieces df' ct' dst.attributes rdata.attributes port' ac') _ buffer₄ "rdata ".toList 8 _ 0
    (out.ends "rdata".toList) rdata rfl hterm₄ hf₄ (by decide)
    (forall_chars (by decide))
    (by rw [he₄, wordSub_eq (by omega) (by omega)]; simp; omega) hrdata
  have hdstRead := @readEndpoint_tag
    (cmPieces df' ct' dst.attributes rdata.attributes port' ac') _ buffer₄ "dst ".toList 6 _ 0
    (out.ends "dst".toList) dst rfl hterm₄ hf₃ (by decide)
    (forall_chars (by decide))
    (by rw [he₃, wordSub_eq (by omega) (by omega)]; simp; omega) hdst
  rw [Nat.add_zero, ← hb₄] at hrdataRead
  rw [Nat.add_zero, ← hb₃] at hdstRead
  rw [← hbegin] at hversion
  exact (clXmlParseCm_iff hscan hread₁ hread₂ hread₃ hread₄ hversion hdfParsed hctParsed hacParsed
    hportParsed hdf hct hac).trans (and_congr hdstRead hrdataRead)

theorem length_crm {cs text rdata params : List Char} :
    ("<crm version=\"0.3\">".toList ++ renderAll (crmPieces cs text rdata params)).length =
      23 + (cs.length + 1) + text.length + 12 + (rdata.length + 1) + 16 + params.length + 15 := by
  simp [crmPieces, renderAll, Piece.render]
  omega

theorem length_markedCrm {cs text rdata params : List Char} :
    ("<crm version=\"0.3\"\x00".toList ++ markedAll (crmPieces cs text rdata params)).length =
      23 + (cs.length + 1) + text.length + 12 + (rdata.length + 1) + 16 + params.length + 15 := by
  have hhead : "<crm version=\"0.3\"\x00".toList.length =
      "<crm version=\"0.3\">".toList.length := by decide
  rw [← length_crm, List.length_append, List.length_append, length_markedAll, hhead]

/-- What stands in front of the values of a connect response message. -/
theorem crm_fronts {cs text rdata params : List Char} :
    let front := fun k => ("<crm version=\"0.3\"\x00".toList ++
      markedAll ((crmPieces cs text rdata params).take k)).length
    let rdataBegin := 23 + (cs.length + 1) + text.length + 12
    let paramsBegin := rdataBegin + (rdata.length + 1) + 16
    front 3 + 1 = 23 + (cs.length + 1) + text.length + 6 ∧ front 6 = paramsBegin := by
  simp only [crmPieces, List.take_succ_cons, List.take_zero]
  simp [markedAll, Piece.marked]
  omega

/-- The status and the text behind it, of which 254 characters are kept. -/
theorem readStatus_eq {buffer condition tail : List Char} {start fin : ℕ}
    (hdrop : buffer.drop start = "condition=".toList ++ '"' :: (condition ++ '"' :: '\x00' ::
      (csText ++ tail)))
    (hfin : fin = start + (condition.length + 12) + csText.length) (hpos : 0 < start)
    (hcondition : ∀ c ∈ condition, c ≠ '"' ∧ c ≠ '\x00') (hshort : condition.length ≤ 23)
    (htext : '\x00' ∉ csText) :
    readStatus buffer start fin = some (parsedStatus condition, some (csText.take 254)) := by
  have hlit : "condition=".toList.length = 10 := rfl
  obtain ⟨i, hread, hi, hrest⟩ := (@copyQuoted_at fin buffer start "condition=".toList condition
    ('\x00' :: (csText ++ tail)) hdrop (by decide) (fun h => (hcondition _ h).1 rfl)
    (by omega)).1 (by omega)
  have hrest' : buffer.drop (i + 1) = csText ++ tail := by rw [← List.drop_drop, hrest]; rfl
  have hcopy := @copyAll_eq fin (i + 1) csText tail [] (by omega) (by simp)
  rw [readStatus, if_pos ⟨hpos, by omega⟩]
  simp only [hread, hrest', hcopy, Option.bind_eq_bind, Option.bind_some, Option.pure_def]
  rw [List.nil_append, cString_take htext, cString_self fun h => (hcondition _ h).2 rfl]
  rfl

theorem readParams_eq {buffer tail : List Char} {start fin : ℕ}
    (hdrop : buffer.drop start = params ++ tail) (hfin : start + params.length = fin + 1)
    (hpos : 0 < start) (hparams : '\x00' ∉ params) :
    readParams buffer start fin =
      some (if params = [] then none else some (params.take 254)) := by
  rw [readParams]
  by_cases hempty : params = []
  · rw [hempty, List.length_nil] at hfin
    rw [if_neg (by omega), if_pos hempty]
  · have hlen := List.length_pos_iff.mpr hempty
    rw [if_pos ⟨hpos, by omega⟩, if_neg hempty, hdrop, copyAll_eq hfin (by simp),
      Option.map_some, List.nil_append, cString_take hparams]
    rfl

/-- A connect response message is read when its text, its endpoint and its parameters are. -/
theorem clXmlParseCrm_iff {scan : TagScan} {buffer v condition text text' : List Char}
    {params params' : Option (List Char)}
    (hscan : scanBuffer (valueTag strncmp crmRules) buffer = some scan)
    (hversion : clXmlParseVersion scan.buffer scan.versionBegin = some (some v, scan.buffer))
    (hcs : readStatus scan.buffer (scan.begins "cs".toList) (scan.ends "cs".toList) =
      some (parsedStatus condition, some text'))
    (hparams : readParams scan.buffer (scan.begins "params".toList) (scan.ends "params".toList) =
      some params')
    (hcondition : parsedStatus condition = csCondition) :
    clXmlParseCrm buffer = some ⟨some v, csCondition, some text, "not supported".toList, some rdata,
        params⟩ ↔
      text' = text ∧
      readEndpoint scan.buffer (scan.begins "rdata".toList) (scan.ends "rdata".toList) =
        some (some rdata) ∧ params' = params := by
  rw [clXmlParseCrm, hscan]
  simp only [Option.bind_eq_bind, Option.bind_some, hversion, hcs, hparams, hcondition]
  cases readEndpoint scan.buffer (scan.begins "rdata".toList) (scan.ends "rdata".toList) with
  | none => simp only [Option.bind_none, reduceCtorEq, false_and, and_false]
  | some rdata' =>
      simp only [Option.bind_some, Option.pure_def, Option.some.injEq, ClComCrm.mk.injEq, true_and]

/-- The connect response message is read back exactly when its endpoint, its text and its parameters
fit. -/
theorem clXmlParseCrm_message (hlen : (clConnectResponseMessage clConnectResponseMessageVersion
      (connectionStatus csCondition) csText rdata params).length < 2 ^ 64)
    (hcondition : csCondition ≠ .undefined) (htext : ∀ c ∈ csText, c ≠ '<' ∧ c ≠ '>' ∧ c ≠ '\x00')
    (hrdata : rdata.Plain) (hparams : ∀ c ∈ params, c ≠ '<' ∧ c ≠ '>' ∧ c ≠ '\x00') :
    clXmlParseCrm (clConnectResponseMessage clConnectResponseMessageVersion
        (connectionStatus csCondition) csText rdata params) =
      some ⟨some clConnectResponseMessageVersion, csCondition, some csText,
        "not supported".toList, some rdata, if params = [] then none else some params⟩ ↔
    csText.length ≤ 254 ∧ rdata.Fits ∧ params.length ≤ 254 := by
  obtain ⟨hstatus, hshort, hclean⟩ := connectionStatus_spec hcondition
  have hrdataClean := attributes_clean hrdata
  rw [clConnectResponseMessage_eq] at hlen ⊢
  rw [length_crm] at hlen
  generalize connectionStatus csCondition = condition at *
  have hcsLen : ("condition=".toList ++ '"' :: (condition ++ ['"'])).length =
      condition.length + 12 := by simp
  have hcsClean : ∀ c ∈ "condition=".toList ++ '"' :: (condition ++ ['"']),
      c ≠ '<' ∧ c ≠ '>' ∧ c ≠ '\x00' := by
    intro c hc
    simp only [List.mem_append, List.mem_cons, List.not_mem_nil, or_false] at hc
    rcases hc with hc | rfl | hc | rfl
    · revert c
      exact forall_chars (by decide)
    · decide
    · exact ⟨(hclean c hc).1, (hclean c hc).2.1, (hclean c hc).2.2.1⟩
    · decide
  have hpieces := @crmPieces_clean ("condition=".toList ++ '"' :: (condition ++ ['"'])) csText
    rdata.attributes params hcsClean (fun c hc => ⟨(htext c hc).1, (htext c hc).2.1⟩) hrdataClean
    (fun c hc => ⟨(hparams c hc).1, (hparams c hc).2.1⟩)
  generalize hcs : "condition=".toList ++ '"' :: (condition ++ ['"']) = cs at *
  have hlast : ("<crm version=\"0.3\"\x00".toList ++
      markedAll (crmPieces cs csText rdata.attributes params)).getLast? = some '\x00' :=
    @getLast?_markedAll _ _ ((crmPieces cs csText rdata.attributes params).take 8)
  have hmarks := @crm_marks cs csText rdata.attributes params
    { TagScan.init ("<crm version=\"0.3\"\x00".toList ++
        renderAll (crmPieces cs csText rdata.attributes params)) with
      tagBegin := 1
      versionBegin := 14 } rfl
  have hbegin := @markAll_versionBegin crmRules (crmPieces cs csText rdata.attributes params)
    { TagScan.init ("<crm version=\"0.3\"\x00".toList ++
        renderAll (crmPieces cs csText rdata.attributes params)) with
      tagBegin := 1
      versionBegin := 14 } 19
  have hscan := scanBuffer_crm hpieces
  generalize markAll crmRules 19 (crmPieces cs csText rdata.attributes params) _ = out
    at hmarks hbegin hscan
  replace hbegin : out.versionBegin = 14 := hbegin
  obtain ⟨⟨hb₁, he₁⟩, ⟨hb₂, he₂⟩, hb₃, he₃⟩ := hmarks
  obtain ⟨hf₂, hf₃⟩ := @crm_fronts cs csText rdata.attributes params
  have hsize := length_markedCrm.trans_lt hlen
  have hversion : clXmlParseVersion ("<crm version=\"0.3\"\x00".toList ++
      markedAll (crmPieces cs csText rdata.attributes params)) 14 = some (some "0.3".toList, _) :=
    @clXmlParseVersion_eq _ "<crm version=\"".toList "0.3".toList
    ('\x00' :: markedAll (crmPieces cs csText rdata.attributes params)) Terminated.refl hlast
    (forall_chars (by decide)) (by decide) (by decide) hsize
  have hdrop : ("<crm version=\"0.3\"\x00".toList ++
      markedAll (crmPieces cs csText rdata.attributes params)).drop 23 = "condition=".toList ++
        '"' :: (condition ++ '"' :: '\x00' :: (csText ++
          markedAll ((crmPieces cs csText rdata.attributes params).drop 2))) :=
    @drop_front _ "<crm version=\"0.3\"\x00<cs ".toList _ 0 23
      (by simp [← hcs, crmPieces, markedAll, Piece.marked]) rfl
  have hstatusRead := @readStatus_eq csText _ condition _ 23 (out.ends "cs".toList) hdrop
    (by rw [he₁, wordSub_eq (by omega) (by omega)]; omega) (by omega)
    (fun c hc => ⟨(hclean c hc).2.2.2, (hclean c hc).2.2.1⟩) hshort
    (fun h => (htext _ h).2.2 rfl)
  have hrdataRead := @readEndpoint_tag (crmPieces cs csText rdata.attributes params)
    "<crm version=\"0.3\"\x00".toList _ "rdata ".toList 3 _ 6 (out.ends "rdata".toList)
    rdata rfl Terminated.refl hf₂ (by decide)
    (forall_chars (by decide)) (by rw [he₂, wordSub_eq (by omega) (by omega)]; simp; omega) hrdata
  have hdrop' : ("<crm version=\"0.3\"\x00".toList ++
      markedAll (crmPieces cs csText rdata.attributes params)).drop (out.begins "params".toList) =
        params ++ '<' :: ('/' :: "params".toList ++ '\x00' ::
          markedAll ((crmPieces cs csText rdata.attributes params).drop 8)) := by
    rw [@split_text (crmPieces cs csText rdata.attributes params) _ _ _ 6 rfl rfl, hb₃, ← hf₃]
    exact List.drop_left
  have hparamsRead := @readParams_eq params _ _ (out.begins "params".toList)
    (out.ends "params".toList) hdrop' (by rw [he₃, hb₃, wordSub_eq (by omega) (by omega)]; omega)
    (by omega) (fun h => (hparams _ h).2.2 rfl)
  have hrdataBegin : 23 + (cs.length + 1) + csText.length + 6 + 6 =
      out.begins "rdata".toList := hb₂.symm
  rw [hrdataBegin] at hrdataRead
  rw [← hb₁] at hstatusRead
  rw [← hbegin] at hversion
  refine (clXmlParseCrm_iff hscan hversion hstatusRead hparamsRead hstatus).trans ?_
  rw [List.take_eq_self_iff, hrdataRead]
  refine and_congr Iff.rfl (and_congr Iff.rfl ?_)
  by_cases hempty : params = []
  · simp [hempty]
  · rw [if_neg hempty, if_neg hempty, Option.some.injEq, List.take_eq_self_iff]

theorem length_clConnectMessage_le (hport : port < 2 ^ 63) (hdst : dst.Plain)
    (hrdata : rdata.Plain) :
    (clConnectMessage clConnectMessageVersion (formatType df) (flowType ct) dst rdata port
      (autocloseType ac)).length ≤ 218 + dst.compHost.length + dst.compName.length +
        rdata.compHost.length + rdata.compName.length := by
  have hdf : (formatType df).length ≤ 3 := by cases df <;> decide
  have hct : (flowType ct).length ≤ 7 := by cases ct <;> decide
  have hac : (autocloseType ac).length ≤ 8 := by cases ac <;> decide
  have hport' := length_formatLd hport
  have hdst' := length_formatLd hdst.id
  have hrdata' := length_formatLd hrdata.id
  rw [clConnectMessage_eq, length_cm, ClComEndpoint.attributes, ClComEndpoint.attributes,
    length_attributes, length_attributes]
  generalize formatLd port = port', formatLd dst.compId = id, formatLd rdata.compId = id' at *
  rw [List.length_nil]
  omega

/-- A handshake message is read back exactly when nothing in it fills the buffer of the copying
loops. -/
theorem handshake_survives_iff (hvalid : message.Valid) : message.Survives ↔ message.Unharmed := by
  obtain ⟨hlen, hvalid⟩ := hvalid
  cases message with
  | cm df ct ac port dst rdata =>
      obtain ⟨hdf, hct, hac, hport, hdst, hrdata⟩ := hvalid
      exact clXmlParseCm_message hlen hdf hct hac hport hdst hrdata
  | crm csCondition csText rdata params =>
      obtain ⟨hcondition, htext, hrdata, hparams⟩ := hvalid
      exact clXmlParseCrm_message hlen hcondition htext hrdata hparams

theorem plain_qmaster : ClComEndpoint.Plain ⟨"master".toList, "qmaster".toList, 1⟩ :=
  ⟨forall_chars (by decide), forall_chars (by decide), by decide⟩

theorem handshake_survives_execd :
    HandshakeMessage.Survives (.cm .xml .message .disabled 0 ⟨"master".toList, "qmaster".toList, 1⟩
      ⟨"node".toList, "execd".toList, 1⟩) := by
  have hexecd : ClComEndpoint.Plain ⟨"node".toList, "execd".toList, 1⟩ :=
    ⟨forall_chars (by decide), forall_chars (by decide), by decide⟩
  have hvalid : HandshakeMessage.Valid (.cm .xml .message .disabled 0
      ⟨"master".toList, "qmaster".toList, 1⟩ ⟨"node".toList, "execd".toList, 1⟩) :=
    ⟨(length_clConnectMessage_le (by decide) plain_qmaster hexecd).trans_lt (by decide),
      by decide, by decide, by decide, by decide, plain_qmaster, hexecd⟩
  exact (handshake_survives_iff hvalid).mpr
    ⟨.inl ⟨by decide, .inl (by decide)⟩, .inl ⟨by decide, .inl (by decide)⟩⟩

theorem plain_longHost : ClComEndpoint.Plain ⟨List.replicate 254 'n', "execd".toList, 1⟩ :=
  ⟨fun c hc => by rw [List.eq_of_mem_replicate hc]; decide, forall_chars (by decide),
    by decide⟩

/-- The closing quote of a host name of 254 characters is taken for the opening quote of the
component name. -/
theorem handshake_long_host :
    let message := HandshakeMessage.cm .xml .message .disabled 0
      ⟨"master".toList, "qmaster".toList, 1⟩ ⟨List.replicate 254 'n', "execd".toList, 1⟩
    message.Valid ∧ ¬ message.Survives := by
  have hlen : (clConnectMessage clConnectMessageVersion (formatType .xml) (flowType .message)
      ⟨"master".toList, "qmaster".toList, 1⟩ ⟨List.replicate 254 'n', "execd".toList, 1⟩ 0
      (autocloseType .disabled)).length < 2 ^ 64 :=
    (length_clConnectMessage_le (by decide) plain_qmaster plain_longHost).trans_lt
      (by rw [List.length_replicate]; decide)
  have hxml : ClXmlDataFormat.xml ≠ .undefined := by decide
  have hmessage : ClXmlConnectionType.message ≠ .undefined := by decide
  have hdisabled : ClXmlConnectionAutoclose.disabled ≠ .undefined := by decide
  refine ⟨⟨hlen, hxml, hmessage, hdisabled, by norm_num, plain_qmaster, plain_longHost⟩,
    fun h => ?_⟩
  have hfits := ((clXmlParseCm_message hlen hxml hmessage hdisabled (by norm_num) plain_qmaster
    plain_longHost).mp h).2
  rcases hfits with ⟨hhost, -⟩ | ⟨-, -, hid⟩
  · rw [List.length_replicate] at hhost
    omega
  · exact absurd hid (by decide)

end Handshake

end GridEngine.CheckedBuffer
