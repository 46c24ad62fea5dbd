import GridEngine.XmlEscape

/-!
# Message headers on the wire

The formats of the message information header (MIH), the acknowledge message (AM), the status
information response message (SIRM) and the general header (GMSH), and their parsers.
-/

namespace GridEngine

/-- `%ld` of an unsigned word. -/
def formatLd (n : ℕ) : List Char :=
  if n < 2 ^ 63 then Nat.toDigits 10 n else '-' :: Nat.toDigits 10 (2 ^ 64 - n)

/-- `cl_util_get_ulong_value`: the leading digits, 0 if there are none. -/
def clUtilGetUlongValue (text : List Char) : ℕ :=
  Nat.ofDigitChars 10 (text.takeWhile Char.isDigit) 0

/-- `cl_xml_mih_data_format_t`. -/
inductive ClXmlMihDataFormat
  | undefined | bin | xml | am | sim | sirm | ccm | ccrm | cm | crm
deriving DecidableEq, Repr

/-- `cl_xml_ack_type_t`. -/
inductive ClXmlAckType
  | undefined | nak | ack | sync
deriving DecidableEq, Repr

/-- `cl_com_get_mih_df_string`. -/
def clComGetMihDfString : ClXmlMihDataFormat → List Char
  | .bin => "bin".toList
  | .xml => "xml".toList
  | .am => "am".toList
  | .sim => "sim".toList
  | .sirm => "sirm".toList
  | .ccm => "ccm".toList
  | .ccrm => "ccrm".toList
  | .cm => "cm".toList
  | .crm => "crm".toList
  | .undefined => "undefined".toList

/-- `cl_com_get_mih_mat_string`. -/
def clComGetMihMatString : ClXmlAckType → List Char
  | .nak => "nak".toList
  | .ack => "ack".toList
  | .sync => "sync".toList
  | .undefined => "undefined".toList

/-- The comparisons for the data format in `cl_xml_parse_MIH`. -/
def parsedDf (text : List Char) : ClXmlMihDataFormat :=
  if text = "bin".toList then .bin
  else if text = "am".toList then .am
  else if text = "ccm".toList then .ccm
  else if text = "ccrm".toList then .ccrm
  else if text = "xml".toList then .xml
  else if text = "sim".toList then .sim
  else if text = "sirm".toList then .sirm
  else .undefined

/-- The data formats that `cl_xml_parse_MIH` knows. -/
def knownDf : List ClXmlMihDataFormat := [.bin, .am, .ccm, .ccrm, .xml, .sim, .sirm]

/-- The comparisons for the acknowledge type in `cl_xml_parse_MIH`. -/
def parsedMat (text : List Char) : ClXmlAckType :=
  if text = "nak".toList then .nak
  else if text = "ack".toList then .ack
  else if text = "sync".toList then .sync
  else .undefined

/-- `cl_com_MIH_t`. -/
structure ClComMih where
  version : Option (List Char)
  mid : ℕ
  dl : ℕ
  df : ClXmlMihDataFormat
  mat : ClXmlAckType
  tag : ℕ
  rid : ℕ
deriving DecidableEq, Repr

/-- `cl_com_AM_t`. -/
structure ClComAm where
  version : Option (List Char)
  mid : ℕ
deriving DecidableEq, Repr

/-- `cl_com_SIRM_t`. -/
structure ClComSirm where
  version : Option (List Char)
  mid : ℕ
  starttime : ℕ
  runtime : ℕ
  applicationMessagesBrm : ℕ
  applicationMessagesBwm : ℕ
  applicationConnectionsNoc : ℕ
  applicationStatus : ℕ
  info : Option (List Char)
deriving DecidableEq, Repr

inductive ClRetval
  | ok | maxMessageLengthError
deriving DecidableEq, Repr

def clDefineMaxMessageLength : ℕ := 1024 * 1024 * 1024

/-- `CL_MIH_MESSAGE`. -/
def clMihMessage (version : List Char) (mid dl : ℕ) (df mat : List Char) (tag rid : ℕ) :
    List Char :=
  "<mih version=\"".toList ++ version ++ "\"><mid>".toList ++ formatLd mid ++
    "</mid><dl>".toList ++ formatLd dl ++ "</dl><df>".toList ++ df ++ "</df><mat>".toList ++ mat ++
    "</mat><tag>".toList ++ formatLd tag ++ "</tag><rid>".toList ++ formatLd rid ++
    "</rid></mih>".toList

/-- `CL_MIH_MESSAGE_VERSION`. -/
def clMihMessageVersion : List Char := "0.1".toList

/-- `CL_AM_MESSAGE`. -/
def clAmMessage (version : List Char) (mid : ℕ) : List Char :=
  "<am version=\"".toList ++ version ++ "\"><mid>".toList ++ formatLd mid ++
    "</mid></am>".toList

/-- `CL_AM_MESSAGE_VERSION`. -/
def clAmMessageVersion : List Char := "0.1".toList

/-- `CL_SIRM_MESSAGE`. -/
def clSirmMessage (version : List Char) (mid starttime runtime brm bwm noc status : ℕ)
    (info : List Char) : List Char :=
  "<sirm version=\"".toList ++ version ++ "\"><mid>".toList ++ formatLd mid ++
    "</mid><starttime>".toList ++ formatLd starttime ++ "</starttime><runtime>".toList ++
    formatLd runtime ++ "</runtime><application><messages><brm>".toList ++ formatLd brm ++
    "</brm><bwm>".toList ++ formatLd bwm ++ "</bwm></messages><connections><noc>".toList ++
    formatLd noc ++ "</noc></connections><status>".toList ++ formatLd status ++
    "</status></application><info>".toList ++ info ++ "</info></sirm>".toList

/-- `CL_SIRM_MESSAGE_VERSION`. -/
def clSirmMessageVersion : List Char := "0.1".toList

/-- `CL_GMSH_MESSAGE`. -/
def clGmshMessage (dl : ℕ) : List Char :=
  "<gmsh><dl>".toList ++ formatLd dl ++ "</dl></gmsh>".toList

/-- `cl_xml_parse_version`, behind a version that was found. -/
def clXmlParseVersion (buffer : List Char) (versionBegin : ℕ) : Option (List Char) × List Char :=
  if 0 < versionBegin then
    let buffer := buffer.set (buffer.length - 1) '\x00'
    let charptr := cString (buffer.drop versionBegin)
    (if '"' ∈ charptr then some (charptr.takeWhile (fun c => c ≠ '"')) else none, buffer)
  else (none, buffer)

/-- The number that was read, 0 if there was none. -/
def readValue (buffer : List Char) (start fin : ℕ) : ℕ × List Char :=
  let (text, buffer) := readText buffer start fin
  ((text.map clUtilGetUlongValue).getD 0, buffer)

/-- The loop over a message with a version. -/
def scanMessage (names : List (List Char)) (endOf : ℕ → ℕ → ℕ) (buffer : List Char) : TagScan :=
  scanFrom true (valueTag names endOf) (.init buffer) 0 buffer.length

def mihNames : List (List Char) :=
  ["mid".toList, "dl".toList, "df".toList, "mat".toList, "tag".toList, "rid".toList]

/-- `cl_xml_parse_MIH`, the length of the buffer being `buffer_length`. -/
def clXmlParseMih (buffer : List Char) : ClRetval × ClComMih :=
  let scan := scanMessage mihNames (fun tagBegin _ => tagBegin - 1) buffer
  let value := fun buffer name => readValue buffer (scan.begins name) (scan.ends name)
  let text := fun buffer name => readText buffer (scan.begins name) (scan.ends name)
  let (version, buffer) := clXmlParseVersion scan.buffer scan.versionBegin
  let (mid, buffer) := value buffer "mid".toList
  let (tag, buffer) := value buffer "tag".toList
  let (rid, buffer) := value buffer "rid".toList
  let (dl, buffer) := value buffer "dl".toList
  let (df, buffer) := text buffer "df".toList
  let (mat, _) := text buffer "mat".toList
  let message : ClComMih :=
    ⟨version, mid, dl, (df.map parsedDf).getD .undefined, (mat.map parsedMat).getD .undefined, tag,
      rid⟩
  (if clDefineMaxMessageLength < dl then .maxMessageLengthError else .ok, message)

/-- `cl_xml_parse_AM`. -/
def clXmlParseAm (buffer : List Char) : ClComAm :=
  let scan := scanMessage ["mid".toList] (fun tagBegin _ => tagBegin - 2) buffer
  let (version, buffer) := clXmlParseVersion scan.buffer scan.versionBegin
  let (mid, _) := readValue buffer (scan.begins "mid".toList) (scan.ends "mid".toList)
  ⟨version, mid⟩

def sirmNames : List (List Char) :=
  ["mid".toList, "starttime".toList, "runtime".toList, "brm".toList, "bwm".toList, "noc".toList,
    "status".toList, "info".toList]

/-- `cl_xml_parse_SIRM`. -/
def clXmlParseSirm (buffer : List Char) : ClComSirm :=
  let scan := scanMessage sirmNames (fun tagBegin _ => tagBegin - 1) buffer
  let value := fun buffer name => readValue buffer (scan.begins name) (scan.ends name)
  let (version, buffer) := clXmlParseVersion scan.buffer scan.versionBegin
  let (info, buffer) := readText buffer (scan.begins "info".toList) (scan.ends "info".toList)
  let (mid, buffer) := value buffer "mid".toList
  let (starttime, buffer) := value buffer "starttime".toList
  let (runtime, buffer) := value buffer "runtime".toList
  let (brm, buffer) := value buffer "brm".toList
  let (bwm, buffer) := value buffer "bwm".toList
  let (noc, buffer) := value buffer "noc".toList
  let (status, _) := value buffer "status".toList
  ⟨version, mid, starttime, runtime, brm, bwm, noc, status, info.map clComTransformXML2String⟩

/-- What `cl_xml_parse_GMSH` does with a tag. -/
def gmshTag (scan : TagScan) (closingTag : Bool) (name : List Char) (bufPointer : ℕ) : TagScan :=
  if closingTag = true ∧ name = "gmsh".toList then
    { scan with
      usedBufferLength :=
        if scan.usedBufferLength = 0 then bufPointer + 1 else scan.usedBufferLength
      skip := true }
  else if name = "dl".toList then
    if closingTag then { scan with ends := Function.update scan.ends name (bufPointer - 1) }
    else { scan with begins := Function.update scan.begins name (bufPointer + 1) }
  else scan

/-- `cl_xml_parse_GMSH`: the data length and the used length of the buffer, which has a terminator
behind it. -/
def clXmlParseGmsh (buffer : List Char) : ℕ × ℕ :=
  let scan := scanFrom false gmshTag (.init (buffer ++ ['\x00'])) 0 (buffer.length + 1)
  let (dl, _) := readValue scan.buffer (scan.begins "dl".toList) (scan.ends "dl".toList)
  (dl, scan.usedBufferLength)

section Numbers
variable {n : ℕ} {rest : List Char}

theorem formatLd_eq (hn : n < 2 ^ 63) : formatLd n = Nat.toDigits 10 n := if_pos hn

theorem formatLd_digits (hn : n < 2 ^ 63) : ∀ c ∈ formatLd n, c.isDigit = true := by
  intro c hc
  rw [formatLd_eq hn] at hc
  exact Nat.isDigit_of_mem_toDigits (by decide) (by decide) hc

theorem isDigit_ne {c : Char} (hc : c.isDigit = true) :
    c ≠ '<' ∧ c ≠ '>' ∧ c ≠ '=' ∧ c ≠ '\x00' := by
  refine ⟨?_, ?_, ?_, ?_⟩ <;> rintro rfl <;> exact absurd hc (by decide)

theorem clUtilGetUlongValue_formatLd (hn : n < 2 ^ 63)
    (hrest : ∀ c ∈ rest.head?, c.isDigit = false) :
    clUtilGetUlongValue (formatLd n ++ rest) = n := by
  have htake : (formatLd n ++ rest).takeWhile Char.isDigit = formatLd n := by
    rw [List.takeWhile_append_of_pos (formatLd_digits hn)]
    cases rest with
    | nil => simp
    | cons c rest =>
        have hc := hrest c rfl
        rw [List.takeWhile_cons_of_neg (by simp [hc]), List.append_nil]
  rw [clUtilGetUlongValue, htake, formatLd_eq hn, Nat.ofDigitChars_ten_toDigits]

theorem clUtilGetUlongValue_dropLast (hn : n < 2 ^ 63) :
    clUtilGetUlongValue (formatLd n).dropLast = n / 10 := by
  rw [formatLd_eq hn, Nat.toDigits_eq_if (by decide)]
  by_cases hlt : n < 10
  · rw [if_pos hlt, Nat.div_eq_of_lt hlt]
    rfl
  · have hdiv := @clUtilGetUlongValue_formatLd (n / 10) [] (by omega) (by simp)
    rw [if_neg hlt, List.dropLast_concat]
    rwa [List.append_nil, formatLd_eq (by omega)] at hdiv

end Numbers

section Formats
variable {df : ClXmlMihDataFormat} {mat : ClXmlAckType}

theorem parsedDf_string (hdf : df ∈ knownDf) : parsedDf (clComGetMihDfString df) = df := by
  revert df
  decide

theorem parsedMat_string (hmat : mat ≠ .undefined) : parsedMat (clComGetMihMatString mat) = mat := by
  cases mat with
  | undefined => exact absurd rfl hmat
  | nak => decide
  | ack => decide
  | sync => decide

theorem dfString_ne : ∀ c ∈ clComGetMihDfString df, c ≠ '<' ∧ c ≠ '>' ∧ c ≠ '\x00' := by
  apply forall_chars
  cases df <;> decide

theorem matString_ne : ∀ c ∈ clComGetMihMatString mat, c ≠ '<' ∧ c ≠ '>' ∧ c ≠ '\x00' := by
  apply forall_chars
  cases mat <;> decide

end Formats

section Messages
variable {names : List (List Char)} {endOf : ℕ → ℕ → ℕ} {name version n v buffer : List Char}
  {pieces : List Piece} {k : ℕ}

/-- A message whose parts have no characters that would be taken for others. -/
structure PlainMessage (names : List (List Char)) (name version : List Char)
    (pieces : List Piece) : Prop where
  name_plain : PlainName name
  version_plain : PlainName version
  not_mem : versionTag name version ∉ names
  head_ne : (versionTag name version).head? ≠ some '/'
  pieces_plain : ∀ piece ∈ pieces, piece.Plain

theorem length_versionedText : (versionedText name version pieces).length =
    (versionTag name version).length + 2 + (renderAll pieces).length := by
  simp only [versionedText, List.length_cons, List.length_append]
  omega

theorem scanMessage_eq (h : PlainMessage names name version pieces) :
    scanMessage names endOf (versionedText name version pieces) =
      scanFrom true (valueTag names endOf)
        { TagScan.init ('<' :: (versionTag name version ++ '\x00' :: renderAll pieces)) with
          tagBegin := 1
          versionBegin := name.length + 11 }
        ('<' :: (versionTag name version ++ ['\x00'])).length (renderAll pieces).length := by
  have hlen : 0 + ((versionTag name version).length + 2) =
      ('<' :: (versionTag name version ++ ['\x00'])).length := by simp
  rw [scanMessage, length_versionedText, scanFrom_add, versionedText,
    scanFrom_versionTag h.name_plain h.version_plain h.not_mem h.head_ne, hlen]

variable (endOf) in
theorem scanMessage_scanned (h : PlainMessage names name version pieces) :
    (scanMessage names endOf (versionedText name version pieces)).buffer =
        versionedMarked name version pieces ∧
      (scanMessage names endOf (versionedText name version pieces)).versionBegin =
        name.length + 11 := by
  rw [scanMessage_eq h]
  have hscanned := @scanned_pieces true names endOf
    { TagScan.init ('<' :: (versionTag name version ++ '\x00' :: renderAll pieces)) with
      tagBegin := 1
      versionBegin := name.length + 11 }
    ('<' :: (versionTag name version ++ ['\x00'])) [] pieces rfl rfl h.pieces_plain
    (by simp [TagScan.init])
  refine ⟨?_, hscanned.version⟩
  rw [hscanned.buffer]
  simp [versionedMarked]

/-- The tags among pieces. -/
def tagsOf (pieces : List Piece) : List (List Char) :=
  pieces.filterMap fun
    | .tag content => some content
    | .text _ => none

/-- Where a value stands in a message. -/
structure ValueAt (pieces : List Piece) (k : ℕ) (n v : List Char) : Prop where
  opening : pieces[k]? = some (.tag n)
  value : pieces[k + 1]? = some (.text v)
  closing : pieces[k + 2]? = some (.tag ('/' :: n))
  opening_last : .tag n ∉ pieces.drop (k + 3)
  closing_last : .tag ('/' :: n) ∉ pieces.drop (k + 3)

theorem not_mem_drop_of_nodup (hnodup : (tagsOf pieces).Nodup) (h : pieces[k]? = some (.tag n)) :
    .tag n ∉ pieces.drop (k + 1) := by
  obtain ⟨hk, heq⟩ := List.getElem?_eq_some_iff.mp h
  rw [← List.take_append_drop k pieces, List.drop_eq_getElem_cons hk, heq, tagsOf,
    List.filterMap_append] at hnodup
  have hcons : (n :: tagsOf (pieces.drop (k + 1))).Nodup := (List.nodup_append.mp hnodup).2.1
  exact fun hmem => (List.nodup_cons.mp hcons).1 (List.mem_filterMap.mpr ⟨_, hmem, rfl⟩)

theorem ValueAt.of_nodup (hnodup : (tagsOf pieces).Nodup) (hopening : pieces[k]? = some (.tag n))
    (hvalue : pieces[k + 1]? = some (.text v)) (hclosing : pieces[k + 2]? = some (.tag ('/' :: n))) :
    ValueAt pieces k n v := by
  refine ⟨hopening, hvalue, hclosing, fun hmem => ?_, not_mem_drop_of_nodup hnodup hclosing⟩
  have hdrop : pieces.drop (k + 3) = (pieces.drop (k + 1)).drop 2 := by rw [List.drop_drop]
  rw [hdrop] at hmem
  exact not_mem_drop_of_nodup hnodup hopening (List.mem_of_mem_drop hmem)

theorem ValueAt.split (h : ValueAt pieces k n v) : pieces =
    pieces.take k ++ .tag n :: .text v :: .tag ('/' :: n) :: pieces.drop (k + 3) := by
  obtain ⟨hk₀, hopen⟩ := List.getElem?_eq_some_iff.mp h.opening
  obtain ⟨hk₁, hvalue⟩ := List.getElem?_eq_some_iff.mp h.value
  obtain ⟨hk₂, hclose⟩ := List.getElem?_eq_some_iff.mp h.closing
  rw [← hopen, ← hvalue, ← hclose, ← List.drop_eq_getElem_cons hk₂, ← List.drop_eq_getElem_cons hk₁,
    ← List.drop_eq_getElem_cons hk₀, List.take_append_drop]

/-- The place where a value begins. -/
def valueStart (name version : List Char) (pieces : List Piece) (k : ℕ) (n : List Char) : ℕ :=
  (versionTag name version).length + 2 + (renderAll (pieces.take k)).length + n.length + 2

variable (endOf) in
theorem scanMessage_value (h : PlainMessage names name version pieces) (hn : n ∈ names)
    (hhead : n.head? ≠ some '/') (hat : ValueAt pieces k n v) :
    (scanMessage names endOf (versionedText name version pieces)).begins n =
        valueStart name version pieces k n ∧
      (scanMessage names endOf (versionedText name version pieces)).ends n =
        endOf (valueStart name version pieces k n + v.length + 1)
          (valueStart name version pieces k n + v.length + n.length + 2) := by
  have hvalue := @begins_ends_value true names endOf
    { TagScan.init ('<' :: (versionTag name version ++ '\x00' :: renderAll pieces)) with
      tagBegin := 1
      versionBegin := name.length + 11 }
    ('<' :: (versionTag name version ++ ['\x00'])) [] n v pieces (pieces.take k)
    (pieces.drop (k + 3)) rfl rfl hat.split h.pieces_plain (by simp [TagScan.init]) hn hhead
    hat.opening_last hat.closing_last
  have hlen : ('<' :: (versionTag name version ++ ['\x00'])).length =
      (versionTag name version).length + 2 := by simp
  rw [scanMessage_eq h, valueStart, ← hlen]
  exact hvalue

theorem versionedMarked_split (hat : ValueAt pieces k n v) : ∃ before after,
    versionedMarked name version pieces = before ++ (v ++ '<' :: after) ∧
      before.length = valueStart name version pieces k n := by
  refine ⟨'<' :: (versionTag name version ++ '\x00' :: (markedAll (pieces.take k) ++
    (Piece.tag n).marked)), '/' :: (n ++ '\x00' :: markedAll (pieces.drop (k + 3))), ?_, ?_⟩
  · conv_lhs => rw [hat.split]
    simp [versionedMarked, markedAll_append, Piece.marked]
  · simp only [valueStart, List.length_cons, List.length_append, length_markedAll, length_marked,
      Piece.render, List.length_nil]
    omega

/-- The value between two tags is read whole, whatever was read before. -/
theorem exists_readText (h : PlainMessage names name version pieces) (hn : n ∈ names)
    (hhead : n.head? ≠ some '/') (hat : ValueAt pieces k n v) (hv : ∀ c ∈ v, c ≠ '<' ∧ c ≠ '\x00')
    (hterm : Terminated buffer (versionedMarked name version pieces)) :
    ∃ buffer', readText buffer
        ((scanMessage names (fun tagBegin _ => tagBegin - 1)
          (versionedText name version pieces)).begins n)
        ((scanMessage names (fun tagBegin _ => tagBegin - 1)
          (versionedText name version pieces)).ends n) = (some v, buffer') ∧
      Terminated buffer' (versionedMarked name version pieces) := by
  obtain ⟨hbegins, hends⟩ := scanMessage_value (fun tagBegin _ => tagBegin - 1) h hn hhead hat
  obtain ⟨before, after, heq, hlen⟩ := @versionedMarked_split name version n v pieces k hat
  rw [heq] at hterm
  have hpos : 0 < valueStart name version pieces k n := by
    rw [valueStart]
    omega
  obtain ⟨hread, hterm'⟩ := hterm.readText hv (Or.inl rfl) hlen hpos
  rw [hbegins, hends, Nat.add_sub_cancel, heq]
  exact ⟨_, Prod.ext hread rfl, hterm'⟩

theorem exists_readValue {m : ℕ} (h : PlainMessage names name version pieces) (hn : n ∈ names)
    (hhead : n.head? ≠ some '/') (hat : ValueAt pieces k n (formatLd m)) (hm : m < 2 ^ 63)
    (hterm : Terminated buffer (versionedMarked name version pieces)) :
    ∃ buffer', readValue buffer
        ((scanMessage names (fun tagBegin _ => tagBegin - 1)
          (versionedText name version pieces)).begins n)
        ((scanMessage names (fun tagBegin _ => tagBegin - 1)
          (versionedText name version pieces)).ends n) = (m, buffer') ∧
      Terminated buffer' (versionedMarked name version pieces) := by
  obtain ⟨buffer', hread, hterm'⟩ := exists_readText h hn hhead hat
    (fun c hc => ⟨(isDigit_ne (formatLd_digits hm c hc)).1,
      (isDigit_ne (formatLd_digits hm c hc)).2.2.2⟩) hterm
  refine ⟨buffer', ?_, hterm'⟩
  have hvalue := @clUtilGetUlongValue_formatLd m [] hm (by simp)
  rw [List.append_nil] at hvalue
  simp [readValue, hread, hvalue]

/-- The version is read and nothing else changes when the message ends with a tag. -/
theorem clXmlParseVersion_marked (h : PlainMessage names name version pieces)
    {content : List Char} (hlast : pieces.getLast? = some (.tag content)) :
    clXmlParseVersion (versionedMarked name version pieces) (name.length + 11) =
      (some version, versionedMarked name version pieces) := by
  obtain ⟨before, rfl⟩ := List.getLast?_eq_some_iff.mp hlast
  have hend : ∃ l, versionedMarked name version (before ++ [.tag content]) = l ++ ['\x00'] := by
    refine ⟨'<' :: (versionTag name version ++ '\x00' :: (markedAll before ++ '<' :: content)), ?_⟩
    simp [versionedMarked, markedAll, Piece.marked]
  have hset : (versionedMarked name version (before ++ [.tag content])).set
      ((versionedMarked name version (before ++ [.tag content])).length - 1) '\x00' =
        versionedMarked name version (before ++ [.tag content]) := by
    obtain ⟨l, hl⟩ := hend
    rw [hl, List.length_append, List.length_singleton, Nat.add_sub_cancel,
      List.set_append_right _ _ le_rfl, Nat.sub_self]
    rfl
  have hdrop : (versionedMarked name version (before ++ [.tag content])).drop (name.length + 11) =
      (version ++ ['"']) ++ '\x00' :: markedAll (before ++ [.tag content]) := by
    have hsplit : versionedMarked name version (before ++ [.tag content]) =
        ('<' :: (name ++ " version".toList ++ ['=', '"'])) ++
          ((version ++ ['"']) ++ '\x00' :: markedAll (before ++ [.tag content])) := by
      simp [versionedMarked, versionTag]
    have hlen : ('<' :: (name ++ " version".toList ++ ['=', '"'])).length = name.length + 11 := by
      simp
    rw [hsplit, ← hlen, List.drop_left]
  have hplain : ∀ c ∈ version ++ ['"'], c ≠ '\x00' := by
    intro c hc
    rcases List.mem_append.mp hc with hc | hc
    · exact (h.version_plain c hc).2.2.2.1
    · rw [List.mem_singleton.mp hc]
      decide
  rw [clXmlParseVersion, if_pos (by omega)]
  simp only [hset, hdrop, cString_append_null hplain]
  have hquote : ∀ c ∈ version, decide (c ≠ '"') = true := by
    intro c hc
    simpa using (h.version_plain c hc).2.2.2.2
  rw [if_pos (by simp), List.takeWhile_append_of_pos hquote]
  simp

end Messages

end GridEngine
