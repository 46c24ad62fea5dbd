import Mathlib.Tactic

/-!
# The scan for tags in a message buffer

The parsers of the communication library run over a buffer, write a terminator over the end of
each tag and remember where the value behind an opening tag begins and where the value before a
closing tag ends. Their loops differ in the tags they know and in the end they take.
-/

namespace GridEngine

/-- The variables of a parser's loop, those of the values given by the names of their tags. `skip`
is set when the pointer was moved on twice. -/
structure TagScan where
  buffer : List Char
  inTag : Bool
  tagBegin : ℕ
  versionBegin : ℕ
  begins : List Char → ℕ
  ends : List Char → ℕ
  usedBufferLength : ℕ
  skip : Bool

namespace TagScan

def init (buffer : List Char) : TagScan :=
  ⟨buffer, false, 0, 0, fun _ => 0, fun _ => 0, 0, false⟩

/-- The variables behind the beginning of a tag. -/
def opened (scan : TagScan) (bufPointer : ℕ) : TagScan :=
  { scan with inTag := true, tagBegin := bufPointer + 1 }

end TagScan

/-- What a C string at the beginning of a buffer is. -/
def cString (l : List Char) : List Char := l.takeWhile (fun c => c ≠ '\x00')

/-- `cl_xml_parse_is_version`, from the beginning of the tag on. -/
def clXmlParseIsVersion : List Char → Bool
  | [] => false
  | c :: rest =>
      if c = '>' then false
      else if "version".toList.isPrefixOf (c :: rest) then true
      else clXmlParseIsVersion rest

/-- One turn of a parser's loop. `withVersion` says whether the parser looks for a version, and
`onTag` is what it does with a tag that ends at the pointer. -/
def scanStep (withVersion : Bool) (onTag : TagScan → Bool → List Char → ℕ → TagScan)
    (scan : TagScan) (bufPointer : ℕ) : TagScan :=
  let c := scan.buffer.getD bufPointer '\x00'
  if scan.skip then { scan with skip := false }
  else if c = '=' then
    if withVersion = true ∧ scan.inTag = true ∧ scan.versionBegin = 0 ∧
        clXmlParseIsVersion (scan.buffer.drop scan.tagBegin) = true
    then { scan with versionBegin := bufPointer + 2 } else scan
  else if c = '<' then scan.opened bufPointer
  else if c = '>' then
    let scan := { scan with inTag := false }
    if scan.tagBegin < bufPointer - 1 ∧ 0 < scan.tagBegin then
      let closingTag := scan.buffer.getD scan.tagBegin '\x00' = '/'
      let charptr := if closingTag then scan.tagBegin + 1 else scan.tagBegin
      let scan := { scan with buffer := scan.buffer.set bufPointer '\x00' }
      onTag scan closingTag (cString (scan.buffer.drop charptr)) bufPointer
    else scan
  else scan

instance lawfulBEq_chars : LawfulBEq (List Char) := inferInstance

/-- The comparisons with the names of the values. `endOf` is the end a closing tag gives, from the
beginning of the tag and the pointer. -/
def valueTag (names : List (List Char)) (endOf : ℕ → ℕ → ℕ) (scan : TagScan) (closingTag : Bool)
    (name : List Char) (bufPointer : ℕ) : TagScan :=
  if name ∈ names then
    if closingTag then
      { scan with ends := Function.update scan.ends name (endOf scan.tagBegin bufPointer) }
    else { scan with begins := Function.update scan.begins name (bufPointer - 1 + 2) }
  else scan

/-- The loop over `count` positions from `bufPointer` on. -/
def scanFrom (withVersion : Bool) (onTag : TagScan → Bool → List Char → ℕ → TagScan)
    (scan : TagScan) (bufPointer count : ℕ) : TagScan :=
  (List.range' bufPointer count).foldl (scanStep withVersion onTag) scan

/-- A piece of a message. -/
inductive Piece
  | tag (content : List Char)
  | text (content : List Char)
deriving DecidableEq, Repr

namespace Piece

def render : Piece → List Char
  | .tag content => '<' :: (content ++ ['>'])
  | .text content => content

/-- A piece behind the scan. -/
def marked : Piece → List Char
  | .tag content => '<' :: (content ++ ['\x00'])
  | .text content => content

/-- A tag of at least two characters and no other special ones, or a text without tags. -/
def Plain : Piece → Prop
  | .tag content => 2 ≤ content.length ∧ ∀ c ∈ content, c ≠ '<' ∧ c ≠ '>' ∧ c ≠ '=' ∧ c ≠ '\x00'
  | .text content => ∀ c ∈ content, c ≠ '<' ∧ c ≠ '>'

instance : DecidablePred Plain
  | .tag content => @instDecidableAnd _ _ _ (List.decidableBAll _ content)
  | .text content => List.decidableBAll _ content

end Piece

def renderAll (pieces : List Piece) : List Char := pieces.flatMap Piece.render

def markedAll (pieces : List Piece) : List Char := pieces.flatMap Piece.marked

section Scan
variable {withVersion : Bool} {onTag : TagScan → Bool → List Char → ℕ → TagScan} {scan : TagScan}
  {pre s post : List Char} {p m n : ℕ} {c : Char} {pieces rest : List Piece}

theorem scanFrom_zero : scanFrom withVersion onTag scan p 0 = scan := rfl

theorem scanFrom_succ : scanFrom withVersion onTag scan p (n + 1) =
    scanFrom withVersion onTag (scanStep withVersion onTag scan p) (p + 1) n := by
  rw [scanFrom, List.range'_succ, List.foldl_cons, scanFrom]

theorem scanFrom_add : scanFrom withVersion onTag scan p (m + n) =
    scanFrom withVersion onTag (scanFrom withVersion onTag scan p m) (p + m) n := by
  rw [scanFrom, ← List.range'_append_1, List.foldl_append, scanFrom, scanFrom]

theorem scanFrom_one : scanFrom withVersion onTag scan p 1 = scanStep withVersion onTag scan p :=
  rfl

theorem getD_append (hbuf : scan.buffer = pre ++ c :: post) :
    scan.buffer.getD pre.length '\x00' = c := by
  simp [hbuf]

theorem scanFrom_plain (hskip : scan.skip = false) (hbuf : scan.buffer = pre ++ (s ++ post))
    (hs : ∀ c ∈ s, c ≠ '<' ∧ c ≠ '>' ∧ (c ≠ '=' ∨ scan.inTag = false)) :
    scanFrom withVersion onTag scan pre.length s.length = scan := by
  induction s generalizing pre with
  | nil => rfl
  | cons c s ih =>
      obtain ⟨hlt, hgt, heq⟩ := hs c List.mem_cons_self
      have hstep : scanStep withVersion onTag scan pre.length = scan := by
        have hc : scan.buffer.getD pre.length '\x00' = c := getD_append hbuf
        simp only [scanStep, hc, hskip, Bool.false_eq_true, if_false, if_neg hlt, if_neg hgt]
        rcases heq with heq | hin
        · rw [if_neg heq]
        · simp [hin]
      rw [List.length_cons, scanFrom_succ, hstep]
      have hlen : pre.length + 1 = (pre ++ [c]).length := by simp
      rw [hlen]
      exact ih (by simpa using hbuf) (fun c' hc' => hs c' (List.mem_cons_of_mem _ hc'))

theorem scanStep_open (hskip : scan.skip = false) (hbuf : scan.buffer = pre ++ '<' :: post) :
    scanStep withVersion onTag scan pre.length = scan.opened pre.length := by
  have hc : scan.buffer.getD pre.length '\x00' = '<' := getD_append hbuf
  simp only [scanStep, hc, hskip, Bool.false_eq_true, if_false, Char.reduceEq, if_true]

theorem scanStep_equals (hskip : scan.skip = false) (hbuf : scan.buffer = pre ++ '=' :: post)
    (hin : scan.inTag = true) (hbegin : scan.versionBegin = 0)
    (hversion : clXmlParseIsVersion (scan.buffer.drop scan.tagBegin) = true) :
    scanStep true onTag scan pre.length = { scan with versionBegin := pre.length + 2 } := by
  have hc : scan.buffer.getD pre.length '\x00' = '=' := getD_append hbuf
  simp only [scanStep, hc, hskip, Bool.false_eq_true, if_false, if_true, hin, hbegin, hversion,
    and_self]

theorem cString_append_null (hs : ∀ c ∈ s, c ≠ '\x00') : cString (s ++ '\x00' :: post) = s := by
  rw [cString, List.takeWhile_append_of_pos (by simpa using hs)]
  simp

theorem scanStep_close (hskip : scan.skip = false) (hlen : 2 ≤ s.length)
    (hs : ∀ c ∈ s, c ≠ '\x00') (hbuf : scan.buffer = pre ++ '<' :: (s ++ '>' :: post))
    (htag : scan.tagBegin = pre.length + 1) :
    scanStep withVersion onTag scan (pre.length + 1 + s.length) =
      onTag { scan with
          buffer := pre ++ '<' :: (s ++ '\x00' :: post)
          inTag := false }
        (s.head? = some '/') (if s.head? = some '/' then s.tail else s)
        (pre.length + 1 + s.length) := by
  have hpos : pre.length + 1 + s.length = (pre ++ '<' :: s).length := by
    simp only [List.length_append, List.length_cons]
    omega
  have hbuf' : scan.buffer = (pre ++ '<' :: s) ++ '>' :: post := by simp [hbuf]
  have hc : scan.buffer.getD (pre.length + 1 + s.length) '\x00' = '>' := by
    rw [hpos]
    exact getD_append hbuf'
  have hset : scan.buffer.set (pre.length + 1 + s.length) '\x00' =
      pre ++ '<' :: (s ++ '\x00' :: post) := by
    rw [hpos, hbuf', List.set_append_right _ _ le_rfl, Nat.sub_self, List.set_cons_zero]
    simp
  have hdrop : (pre ++ '<' :: (s ++ '\x00' :: post)).drop (pre.length + 1) = s ++ '\x00' :: post := by
    rw [← List.drop_drop, List.drop_left]
    rfl
  cases s with
  | nil => simp at hlen
  | cons first s =>
      have hfirst : scan.buffer.getD (pre.length + 1) '\x00' = first := by
        have h := @getD_append scan (pre ++ ['<']) (s ++ '>' :: post) first (by simp [hbuf])
        simpa using h
      have hcond : scan.tagBegin < pre.length + 1 + (first :: s).length - 1 ∧ 0 < scan.tagBegin := by
        omega
      simp only [scanStep, hc, hskip, htag, hset, hfirst] at hcond ⊢
      simp only [Bool.false_eq_true, if_false, Char.reduceEq, if_true, if_pos hcond]
      by_cases hslash : first = '/'
      · have hrest : (pre ++ '<' :: (first :: s ++ '\x00' :: post)).drop (pre.length + 1 + 1) =
            s ++ '\x00' :: post := by
          rw [← List.drop_drop, hdrop]
          rfl
        simp only [if_pos hslash, hrest, List.head?_cons, Option.some.injEq, List.tail_cons,
          cString_append_null (fun c hc => hs c (List.mem_cons_of_mem _ hc))]
      · simp only [if_neg hslash, hdrop, cString_append_null hs, List.head?_cons,
          Option.some.injEq]

/-- A whole tag without an equals sign. -/
theorem scanFrom_tag (hskip : scan.skip = false) (hplain : (Piece.tag s).Plain)
    (hbuf : scan.buffer = pre ++ '<' :: (s ++ '>' :: post)) :
    scanFrom withVersion onTag scan pre.length (s.length + 2) =
      onTag { scan with
          buffer := pre ++ '<' :: (s ++ '\x00' :: post)
          inTag := false
          tagBegin := pre.length + 1 }
        (s.head? = some '/') (if s.head? = some '/' then s.tail else s)
        (pre.length + 1 + s.length) := by
  obtain ⟨hlen, hs⟩ := hplain
  have hpos : pre.length + 1 = (pre ++ ['<']).length := by simp
  have hskip' : (scan.opened pre.length).skip = false := hskip
  have hbuf' : (scan.opened pre.length).buffer = (pre ++ ['<']) ++ (s ++ '>' :: post) := by
    rw [List.append_assoc]
    exact hbuf
  have hcontent : scanFrom withVersion onTag (scan.opened pre.length) (pre.length + 1) s.length =
      scan.opened pre.length := by
    rw [hpos]
    apply scanFrom_plain hskip' hbuf'
    intro c hc
    obtain ⟨hlt, hgt, heq, -⟩ := hs c hc
    exact ⟨hlt, hgt, Or.inl heq⟩
  have hclose := @scanStep_close withVersion onTag (scan.opened pre.length) pre s post hskip' hlen
    (fun c hc => (hs c hc).2.2.2) hbuf rfl
  rw [show s.length + 2 = s.length + 1 + 1 from rfl, scanFrom_succ, scanStep_open hskip hbuf,
    scanFrom_add, hcontent, scanFrom_one, hclose]
  rfl

theorem clXmlParseIsVersion_append (hs : ∀ c ∈ s, c ≠ '>') :
    clXmlParseIsVersion (s ++ ("version".toList ++ post)) = true := by
  induction s with
  | nil => rfl
  | cons c s ih =>
      rw [List.cons_append, clXmlParseIsVersion, if_neg (hs c List.mem_cons_self)]
      split_ifs
      · rfl
      · exact ih (fun c' hc' => hs c' (List.mem_cons_of_mem _ hc'))

end Scan

/-- What a scan with the names of values does on pieces. -/
structure Scanned (scan out : TagScan) (pre post : List Char) (pieces : List Piece) : Prop where
  buffer : out.buffer = pre ++ (markedAll pieces ++ post)
  inTag : out.inTag = false
  skip : out.skip = false
  version : out.versionBegin = scan.versionBegin
  begins : ∀ n, .tag n ∉ pieces → out.begins n = scan.begins n
  ends : ∀ n, .tag ('/' :: n) ∉ pieces → out.ends n = scan.ends n

section Pieces
variable {withVersion : Bool} {names : List (List Char)} {endOf : ℕ → ℕ → ℕ} {scan : TagScan}
  {pre s post n v : List Char} {pieces rest : List Piece} {piece : Piece}

@[simp] theorem renderAll_cons : renderAll (piece :: rest) = piece.render ++ renderAll rest := rfl

@[simp] theorem markedAll_cons : markedAll (piece :: rest) = piece.marked ++ markedAll rest := rfl

theorem renderAll_append : renderAll (pieces ++ rest) = renderAll pieces ++ renderAll rest :=
  List.flatMap_append

theorem markedAll_append : markedAll (pieces ++ rest) = markedAll pieces ++ markedAll rest :=
  List.flatMap_append

theorem length_marked : piece.marked.length = piece.render.length := by
  cases piece <;> simp [Piece.marked, Piece.render]

theorem length_markedAll : (markedAll pieces).length = (renderAll pieces).length := by
  induction pieces with
  | nil => rfl
  | cons piece rest ih => simp [length_marked, ih]

theorem scanFrom_openTag (hskip : scan.skip = false) (hplain : (Piece.tag n).Plain)
    (hhead : n.head? ≠ some '/') (hbuf : scan.buffer = pre ++ ((Piece.tag n).render ++ post)) :
    scanFrom withVersion (valueTag names endOf) scan pre.length (Piece.tag n).render.length =
      { scan with
        buffer := pre ++ (markedAll [.tag n] ++ post)
        inTag := false
        tagBegin := pre.length + 1
        begins := if n ∈ names then Function.update scan.begins n (pre.length + n.length + 2)
          else scan.begins } := by
  have hlen : (Piece.tag n).render.length = n.length + 2 := by simp [Piece.render]
  have hmarked : pre ++ '<' :: (n ++ '\x00' :: post) = pre ++ (markedAll [.tag n] ++ post) := by
    simp [markedAll, Piece.marked]
  have hpos : pre.length + 1 + n.length - 1 + 2 = pre.length + n.length + 2 := by omega
  have hbuf' : scan.buffer = pre ++ '<' :: (n ++ '>' :: post) := by
    rw [hbuf]
    simp [Piece.render]
  rw [hlen, scanFrom_tag hskip hplain hbuf', hmarked, valueTag, if_neg hhead, hpos]
  by_cases hn : n ∈ names
  · simp [hn, hhead]
  · simp [hn]

theorem scanFrom_closeTag (hskip : scan.skip = false) (hplain : (Piece.tag ('/' :: n)).Plain)
    (hbuf : scan.buffer = pre ++ ((Piece.tag ('/' :: n)).render ++ post)) :
    scanFrom withVersion (valueTag names endOf) scan pre.length
        (Piece.tag ('/' :: n)).render.length =
      { scan with
        buffer := pre ++ (markedAll [.tag ('/' :: n)] ++ post)
        inTag := false
        tagBegin := pre.length + 1
        ends := if n ∈ names then Function.update scan.ends n
          (endOf (pre.length + 1) (pre.length + n.length + 2)) else scan.ends } := by
  have hlen : (Piece.tag ('/' :: n)).render.length = ('/' :: n).length + 2 := by
    simp [Piece.render]
  have hmarked : pre ++ '<' :: ('/' :: n ++ '\x00' :: post) =
      pre ++ (markedAll [.tag ('/' :: n)] ++ post) := by
    simp [markedAll, Piece.marked]
  have hpos : pre.length + 1 + ('/' :: n).length = pre.length + n.length + 2 := by
    rw [List.length_cons]
    omega
  have hbuf' : scan.buffer = pre ++ '<' :: ('/' :: n ++ '>' :: post) := by
    rw [hbuf]
    simp [Piece.render]
  have hhead : ('/' :: n).head? = some '/' := rfl
  rw [hlen, scanFrom_tag hskip hplain hbuf', hmarked, valueTag, if_pos hhead, List.tail_cons, hpos]
  by_cases hn : n ∈ names
  · simp [hn]
  · simp [hn]

theorem scanned_piece (hskip : scan.skip = false) (hin : scan.inTag = false)
    (hplain : piece.Plain) (hbuf : scan.buffer = pre ++ (piece.render ++ post)) :
    Scanned scan (scanFrom withVersion (valueTag names endOf) scan pre.length piece.render.length)
      pre post [piece] := by
  cases piece with
  | text s =>
      have hscan : scanFrom withVersion (valueTag names endOf) scan pre.length s.length = scan :=
        scanFrom_plain hskip hbuf (fun c hc => ⟨(hplain c hc).1, (hplain c hc).2, Or.inr hin⟩)
      have hmarked : markedAll [.text s] = s := by simp [markedAll, Piece.marked]
      rw [Piece.render, hscan]
      exact ⟨hmarked.symm ▸ hbuf, hin, hskip, rfl, fun _ _ => rfl, fun _ _ => rfl⟩
  | tag s =>
      by_cases hhead : s.head? = some '/'
      · obtain ⟨n, rfl⟩ : ∃ n, s = '/' :: n := ⟨s.tail, List.eq_cons_of_mem_head? hhead⟩
        rw [scanFrom_closeTag hskip hplain hbuf]
        refine ⟨rfl, rfl, hskip, rfl, fun _ _ => rfl, fun m hm => ?_⟩
        have hne : m ≠ n := by
          rintro rfl
          exact hm (List.mem_singleton.mpr rfl)
        dsimp only
        split_ifs
        · exact Function.update_of_ne hne _ _
        · rfl
      · rw [scanFrom_openTag hskip hplain hhead hbuf]
        refine ⟨rfl, rfl, hskip, rfl, fun m hm => ?_, fun _ _ => rfl⟩
        have hne : m ≠ s := by
          rintro rfl
          exact hm (List.mem_singleton.mpr rfl)
        dsimp only
        split_ifs
        · exact Function.update_of_ne hne _ _
        · rfl

theorem Scanned.append {scan mid out : TagScan} (h : Scanned scan mid pre (renderAll rest ++ post)
    pieces) (h' : Scanned mid out (pre ++ markedAll pieces) post rest) :
    Scanned scan out pre post (pieces ++ rest) where
  buffer := by rw [h'.buffer, markedAll_append, List.append_assoc, List.append_assoc]
  inTag := h'.inTag
  skip := h'.skip
  version := h'.version.trans h.version
  begins n hn := (h'.begins n (fun hm => hn (List.mem_append_right _ hm))).trans
    (h.begins n (fun hm => hn (List.mem_append_left _ hm)))
  ends n hn := (h'.ends n (fun hm => hn (List.mem_append_right _ hm))).trans
    (h.ends n (fun hm => hn (List.mem_append_left _ hm)))

theorem scanned_pieces (hskip : scan.skip = false) (hin : scan.inTag = false)
    (hplain : ∀ piece ∈ pieces, piece.Plain)
    (hbuf : scan.buffer = pre ++ (renderAll pieces ++ post)) :
    Scanned scan (scanFrom withVersion (valueTag names endOf) scan pre.length
      (renderAll pieces).length) pre post pieces := by
  induction pieces generalizing scan pre with
  | nil => exact ⟨hbuf, hin, hskip, rfl, fun _ _ => rfl, fun _ _ => rfl⟩
  | cons piece rest ih =>
      have hpiece := @scanned_piece withVersion names endOf scan pre (renderAll rest ++ post) piece
        hskip hin (hplain piece List.mem_cons_self) (by simpa using hbuf)
      have hlen : pre.length + piece.render.length = (pre ++ markedAll [piece]).length := by
        simp [length_markedAll, renderAll, length_marked]
      rw [renderAll_cons, List.length_append, scanFrom_add, hlen]
      refine hpiece.append (ih hpiece.skip hpiece.inTag
        (fun piece' hp => hplain piece' (List.mem_cons_of_mem _ hp)) ?_)
      rw [hpiece.buffer, List.append_assoc]

theorem begins_ends_first (hskip : scan.skip = false) (hin : scan.inTag = false)
    (hplain : ∀ piece ∈ .tag n :: .text v :: .tag ('/' :: n) :: rest, piece.Plain)
    (hbuf : scan.buffer = pre ++ (renderAll (.tag n :: .text v :: .tag ('/' :: n) :: rest) ++ post))
    (hn : n ∈ names) (hhead : n.head? ≠ some '/') (hopen : .tag n ∉ rest)
    (hclose : .tag ('/' :: n) ∉ rest) :
    let out := scanFrom withVersion (valueTag names endOf) scan pre.length
      (renderAll (.tag n :: .text v :: .tag ('/' :: n) :: rest)).length
    let start := pre.length + n.length + 2
    out.begins n = start ∧
      out.ends n = endOf (start + v.length + 1) (start + v.length + n.length + 2) := by
  simp only [List.forall_mem_cons] at hplain
  obtain ⟨htag, htext, hend, hrest⟩ := hplain
  simp only [renderAll_cons, List.append_assoc] at hbuf
  have hlen : ∀ (before : List Char) (piece : Piece),
      before.length + piece.render.length = (before ++ markedAll [piece]).length := by
    intro before piece
    simp [markedAll, length_marked]
  -- the opening tag, the value, the closing tag, and what follows
  have h₁ := @scanned_piece withVersion names endOf scan pre _ _ hskip hin htag hbuf
  have hbegin := congrFun (congrArg TagScan.begins
    (@scanFrom_openTag withVersion names endOf scan pre _ n hskip htag hhead hbuf)) n
  have h₂ := @scanned_piece withVersion names endOf _ _ _ _ h₁.skip h₁.inTag htext
    (h₁.buffer.trans (List.append_assoc _ _ _).symm)
  have h₃ := @scanned_piece withVersion names endOf _ _ _ _ h₂.skip h₂.inTag hend
    (h₂.buffer.trans (List.append_assoc _ _ _).symm)
  have hends := congrFun (congrArg TagScan.ends
    (@scanFrom_closeTag withVersion names endOf _ _ _ n h₂.skip hend
      (h₂.buffer.trans (List.append_assoc _ _ _).symm))) n
  have h₄ := @scanned_pieces withVersion names endOf _ _ post rest h₃.skip h₃.inTag hrest
    (h₃.buffer.trans (List.append_assoc _ _ _).symm)
  simp only [renderAll_cons, List.length_append, scanFrom_add]
  rw [hlen, hlen, hlen]
  refine ⟨?_, ?_⟩
  · rw [h₄.begins n hopen, h₃.begins n (by simp), h₂.begins n (by simp), hbegin]
    simp only [if_pos hn, Function.update_self]
  · rw [h₄.ends n hclose, hends]
    simp only [if_pos hn, Function.update_self]
    congr 1
    · simp [markedAll, Piece.marked]
      omega
    · simp [markedAll, Piece.marked]
      omega

theorem begins_ends_value {values after : List Piece} (hskip : scan.skip = false)
    (hin : scan.inTag = false)
    (hpieces : pieces = values ++ .tag n :: .text v :: .tag ('/' :: n) :: after)
    (hplain : ∀ piece ∈ pieces, piece.Plain)
    (hbuf : scan.buffer = pre ++ (renderAll pieces ++ post)) (hn : n ∈ names)
    (hhead : n.head? ≠ some '/') (hopen : .tag n ∉ after) (hclose : .tag ('/' :: n) ∉ after) :
    let out := scanFrom withVersion (valueTag names endOf) scan pre.length (renderAll pieces).length
    let start := pre.length + (renderAll values).length + n.length + 2
    out.begins n = start ∧
      out.ends n = endOf (start + v.length + 1) (start + v.length + n.length + 2) := by
  subst hpieces
  obtain ⟨hvalues, hplain'⟩ := List.forall_mem_append.mp hplain
  rw [renderAll_append, List.append_assoc] at hbuf
  have h := @scanned_pieces withVersion names endOf scan pre _ values hskip hin hvalues hbuf
  have hlen : pre.length + (renderAll values).length = (pre ++ markedAll values).length := by
    rw [List.length_append, length_markedAll]
  simp only [renderAll_append, List.length_append, scanFrom_add]
  rw [hlen]
  exact begins_ends_first h.skip h.inTag hplain' (h.buffer.trans (List.append_assoc _ _ _).symm) hn
    hhead hopen hclose

end Pieces

/-- The first tag of a message, with the version of its format. -/
def versionTag (name version : List Char) : List Char :=
  name ++ " version".toList ++ '=' :: '"' :: version ++ ['"']

/-- A message with its first tag. -/
def versionedText (name version : List Char) (pieces : List Piece) : List Char :=
  '<' :: (versionTag name version ++ '>' :: renderAll pieces)

def versionedMarked (name version : List Char) (pieces : List Piece) : List Char :=
  '<' :: (versionTag name version ++ '\x00' :: markedAll pieces)

/-- A string without characters that are special in a tag. -/
def PlainName (s : List Char) : Prop :=
  ∀ c ∈ s, c ≠ '<' ∧ c ≠ '>' ∧ c ≠ '=' ∧ c ≠ '\x00' ∧ c ≠ '"'

instance : DecidablePred PlainName := fun s => List.decidableBAll _ s

/-- A property of the characters of a string, checked one after the other. -/
theorem forall_chars {s : List Char} {p : Char → Prop} [DecidablePred p]
    (h : (s.all fun c => p c) = true) : ∀ c ∈ s, p c :=
  fun c hc => of_decide_eq_true (List.all_eq_true.mp h c hc)

section Version
variable {names : List (List Char)} {endOf : ℕ → ℕ → ℕ} {name version post n v : List Char}
  {pieces : List Piece}

theorem versionTag_ne (hname : PlainName name) (hversion : PlainName version) :
    ∀ c ∈ versionTag name version, c ≠ '<' ∧ c ≠ '>' ∧ c ≠ '\x00' := by
  intro c hc
  simp only [versionTag, List.mem_append, List.mem_cons, List.not_mem_nil, or_false] at hc
  rcases hc with ((hc | hc) | rfl | rfl | hc) | rfl
  · exact ⟨(hname c hc).1, (hname c hc).2.1, (hname c hc).2.2.2.1⟩
  · revert c
    exact forall_chars (by decide)
  · decide
  · decide
  · exact ⟨(hversion c hc).1, (hversion c hc).2.1, (hversion c hc).2.2.2.1⟩
  · decide

theorem scanFrom_versionTag (hname : PlainName name) (hversion : PlainName version)
    (hnames : versionTag name version ∉ names) (hhead : (versionTag name version).head? ≠ some '/') :
    scanFrom true (valueTag names endOf) (.init ('<' :: (versionTag name version ++ '>' :: post))) 0
        ((versionTag name version).length + 2) =
      { TagScan.init ('<' :: (versionTag name version ++ '\x00' :: post)) with
        tagBegin := 1
        versionBegin := name.length + 11 } := by
  have hspecial := versionTag_ne hname hversion
  set first := name ++ " version".toList with hfirst
  set second := '"' :: version ++ ['"'] with hsecond
  have htag : versionTag name version = first ++ '=' :: second := by
    simp [versionTag, hfirst, hsecond]
  have hfirstLen : first.length = name.length + 8 := by simp [hfirst]
  have hlen : 2 ≤ (versionTag name version).length := by
    rw [htag, List.length_append, hfirstLen]
    omega
  have hequals : ∀ c ∈ first ++ second, c ≠ '=' := by
    intro c hc
    simp only [hfirst, hsecond, List.mem_append, List.mem_cons, List.not_mem_nil, or_false] at hc
    rcases hc with (hc | hc) | (rfl | hc) | rfl
    · exact (hname c hc).2.2.1
    · revert c
      exact forall_chars (by decide)
    · decide
    · exact (hversion c hc).2.2.1
    · decide
  have hbetween : ∀ c ∈ first ++ second, c ≠ '<' ∧ c ≠ '>' ∧ c ≠ '=' := by
    intro c hc
    have hmem : c ∈ versionTag name version := by
      rw [htag]
      rcases List.mem_append.mp hc with hc | hc
      · exact List.mem_append_left _ hc
      · exact List.mem_append_right _ (List.mem_cons_of_mem _ hc)
    exact ⟨(hspecial c hmem).1, (hspecial c hmem).2.1, hequals c hc⟩
  set buffer := '<' :: (versionTag name version ++ '>' :: post) with hbuffer
  -- the beginning of the tag, the characters up to the equals sign, it, and those behind it
  set scan₁ := (TagScan.init buffer).opened 0 with hscan₁
  have hopen : scanStep true (valueTag names endOf) (.init buffer) 0 = scan₁ :=
    @scanStep_open _ _ (.init buffer) [] _ rfl hbuffer
  have hbuf₁ : scan₁.buffer = ['<'] ++ (first ++ ('=' :: second ++ '>' :: post)) := by
    change buffer = _
    simp [hbuffer, htag]
  have hpass₁ : scanFrom true (valueTag names endOf) scan₁ (0 + 1) first.length = scan₁ := by
    refine @scanFrom_plain _ _ scan₁ ['<'] first _ rfl hbuf₁ (fun c hc => ?_)
    obtain ⟨hlt, hgt, heq⟩ := hbetween c (List.mem_append_left _ hc)
    exact ⟨hlt, hgt, Or.inl heq⟩
  set scan₂ := { scan₁ with versionBegin := name.length + 11 } with hscan₂
  have hisVersion : clXmlParseIsVersion (scan₁.buffer.drop scan₁.tagBegin) = true := by
    rw [hbuf₁]
    have hdrop : (['<'] ++ (first ++ ('=' :: second ++ '>' :: post))).drop scan₁.tagBegin =
        (name ++ [' ']) ++ ("version".toList ++ ('=' :: second ++ '>' :: post)) := by
      simp [hscan₁, TagScan.opened, hfirst]
    rw [hdrop]
    apply clXmlParseIsVersion_append
    intro c hc
    rcases List.mem_append.mp hc with hc | hc
    · exact (hname c hc).2.1
    · rw [List.mem_singleton.mp hc]
      decide
  have hstep₂ : scanStep true (valueTag names endOf) scan₁ (0 + 1 + first.length) = scan₂ := by
    have hpos : 0 + 1 + first.length = ('<' :: first).length := by
      rw [List.length_cons]
      omega
    rw [hpos, scanStep_equals rfl (by simpa using hbuf₁) rfl rfl hisVersion, hscan₂]
    congr 1
    rw [List.length_cons, hfirstLen]
  have hpass₂ : scanFrom true (valueTag names endOf) scan₂ (0 + 1 + first.length + 1)
      second.length = scan₂ := by
    have hpos : 0 + 1 + first.length + 1 = ('<' :: first ++ ['=']).length := by
      simp only [List.length_append, List.length_cons, List.length_nil]
      omega
    rw [hpos]
    refine @scanFrom_plain _ _ scan₂ _ second ('>' :: post) rfl ?_ (fun c hc => ?_)
    · have hbuf₂ : scan₂.buffer = scan₁.buffer := rfl
      rw [hbuf₂, hbuf₁]
      simp
    · obtain ⟨hlt, hgt, heq⟩ := hbetween c (List.mem_append_right _ hc)
      exact ⟨hlt, hgt, Or.inl heq⟩
  have hclose := @scanStep_close true (valueTag names endOf) scan₂ [] (versionTag name version) post
    rfl hlen (fun c hc => (hspecial c hc).2.2) rfl rfl
  have hcount : (versionTag name version).length + 2 =
      1 + (first.length + (1 + (second.length + 1))) := by
    rw [htag]
    simp only [List.length_append, List.length_cons]
    omega
  have hend : 0 + 1 + first.length + 1 + second.length =
      ([] : List Char).length + 1 + (versionTag name version).length := by
    rw [htag]
    simp only [List.length_append, List.length_cons, List.length_nil]
    omega
  rw [hcount, scanFrom_add, scanFrom_one, hopen, scanFrom_add, hpass₁, scanFrom_add, scanFrom_one,
    hstep₂, scanFrom_add, hpass₂, scanFrom_one, hend, hclose, valueTag, if_neg hhead, if_neg hnames]
  rfl

end Version

/-- A buffer in which some ends of values got terminators. -/
def Terminated (buffer marked : List Char) : Prop :=
  List.Forall₂ (fun c' c => c' = c ∨ (c' = '\x00' ∧ (c = '<' ∨ c = '\x00'))) buffer marked

/-- A value is read when it was found, with a terminator at its end. -/
def readText (buffer : List Char) (start fin : ℕ) : Option (List Char) × List Char :=
  if 0 < start ∧ start ≤ fin then
    let buffer := buffer.set fin '\x00'
    (some (cString (buffer.drop start)), buffer)
  else (none, buffer)

section Read
variable {buffer marked before v after : List Char} {c : Char} {start : ℕ}

theorem Terminated.refl : Terminated marked marked := List.forall₂_same.mpr fun _ _ => Or.inl rfl

theorem eq_of_terminated (hv : ∀ c ∈ v, c ≠ '<' ∧ c ≠ '\x00') (h : Terminated buffer v) :
    buffer = v := by
  induction v generalizing buffer with
  | nil => exact List.forall₂_nil_right_iff.mp h
  | cons c v ih =>
      obtain ⟨c', rest, hc, hrest, rfl⟩ := List.forall₂_cons_right_iff.mp h
      obtain ⟨hlt, hnull⟩ := hv c List.mem_cons_self
      rcases hc with rfl | ⟨-, rfl | rfl⟩
      · rw [ih (fun x hx => hv x (List.mem_cons_of_mem _ hx)) hrest]
      · exact absurd rfl hlt
      · exact absurd rfl hnull

theorem Terminated.split (h : Terminated buffer (before ++ (v ++ c :: after)))
    (hv : ∀ c ∈ v, c ≠ '<' ∧ c ≠ '\x00') : ∃ before' c' after',
      buffer = before' ++ (v ++ c' :: after') ∧ before'.length = before.length ∧
        Terminated before' before ∧ Terminated after' after := by
  have hbefore := List.forall₂_take_append _ _ _ h
  have hrest := List.forall₂_drop_append _ _ _ h
  have hvalue := List.forall₂_take_append _ _ _ hrest
  have hend := List.forall₂_drop_append _ _ _ hrest
  obtain ⟨c', after', -, hafter, heq⟩ := List.forall₂_cons_right_iff.mp hend
  refine ⟨buffer.take before.length, c', after', ?_, hbefore.length_eq, hbefore, hafter⟩
  rw [← heq]
  conv_lhs => rw [← List.take_append_drop before.length buffer,
    ← List.take_append_drop v.length (buffer.drop before.length), eq_of_terminated hv hvalue]

theorem readText_of_eq {before' after' : List Char} {c' : Char}
    (hbuf : buffer = before' ++ (v ++ c' :: after')) (hlen : before'.length = start)
    (hpos : 0 < start) (hv : ∀ c ∈ v, c ≠ '\x00') :
    readText buffer start (start + v.length) =
      (some v, before' ++ (v ++ '\x00' :: after')) := by
  have hset : buffer.set (start + v.length) '\x00' = before' ++ (v ++ '\x00' :: after') := by
    rw [hbuf, ← hlen, List.set_append_right _ _ (by omega), Nat.add_sub_cancel_left,
      List.set_append_right _ _ le_rfl, Nat.sub_self, List.set_cons_zero]
  have hdrop : (before' ++ (v ++ '\x00' :: after')).drop start = v ++ '\x00' :: after' := by
    rw [← hlen, List.drop_left]
  rw [readText, if_pos ⟨hpos, Nat.le_add_right _ _⟩]
  simp only [hset, hdrop, cString_append_null hv]

/-- A value that ends where its closing tag begins is read whole, whatever was read before. -/
theorem Terminated.readText (h : Terminated buffer (before ++ (v ++ c :: after)))
    (hv : ∀ c ∈ v, c ≠ '<' ∧ c ≠ '\x00') (hc : c = '<' ∨ c = '\x00') (hlen : before.length = start)
    (hpos : 0 < start) :
    (GridEngine.readText buffer start (start + v.length)).1 = some v ∧
      Terminated (GridEngine.readText buffer start (start + v.length)).2
        (before ++ (v ++ c :: after)) := by
  obtain ⟨before', c', after', hbuf, hlen', hbefore, hafter⟩ := h.split hv
  rw [readText_of_eq hbuf (hlen'.trans hlen) hpos (fun c hc => (hv c hc).2)]
  refine ⟨rfl, List.rel_append hbefore (List.rel_append Terminated.refl ?_)⟩
  exact List.Forall₂.cons (Or.inr ⟨rfl, hc⟩) hafter

end Read

end GridEngine
