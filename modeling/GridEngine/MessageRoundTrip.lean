import GridEngine.MessageHeaders

/-!
# Which messages survive the wire

Every value of a message is placed between two tags that occur once, so that its parser reads it
back. The parser of the acknowledge message takes the end of the message id one character too
early, and an information text of one character may not fit into the memory of its escaped form.
-/

namespace GridEngine

/-- A header with its values. -/
inductive HeaderMessage
  | mih (mid dl : ℕ) (df : ClXmlMihDataFormat) (mat : ClXmlAckType) (tag rid : ℕ)
  | am (mid : ℕ)
  | sirm (mid starttime runtime brm bwm noc status : ℕ) (info : List Char)
  | gmsh (dl : ℕ)
deriving DecidableEq, Repr

namespace HeaderMessage

/-- Values that a message can have: words that print as positive numbers, a data length within
the bound, formats that the parser knows, and a text without terminators. -/
def Valid : HeaderMessage → Prop
  | .mih mid dl df mat tag rid => mid < 2 ^ 63 ∧ dl ≤ clDefineMaxMessageLength ∧ df ∈ knownDf ∧
      mat ≠ .undefined ∧ tag < 2 ^ 63 ∧ rid < 2 ^ 63
  | .am mid => mid < 2 ^ 63
  | .sirm mid starttime runtime brm bwm noc status info => mid < 2 ^ 63 ∧ starttime < 2 ^ 63 ∧
      runtime < 2 ^ 63 ∧ brm < 2 ^ 63 ∧ bwm < 2 ^ 63 ∧ noc < 2 ^ 63 ∧ status < 2 ^ 63 ∧
      ∀ c ∈ info, c ≠ '\x00'
  | .gmsh dl => dl ≤ clDefineMaxMessageLength

/-- The parser returns the values from which the message was made. -/
def Survives : HeaderMessage → Prop
  | .mih mid dl df mat tag rid =>
      clXmlParseMih (clMihMessage clMihMessageVersion mid dl (clComGetMihDfString df)
        (clComGetMihMatString mat) tag rid) =
      (.ok, ⟨some clMihMessageVersion, mid, dl, df, mat, tag, rid⟩)
  | .am mid => clXmlParseAm (clAmMessage clAmMessageVersion mid) = ⟨some clAmMessageVersion, mid⟩
  | .sirm mid starttime runtime brm bwm noc status info =>
      ∃ xmlInfotext, clComTransformString2XML info = some xmlInfotext ∧
        clXmlParseSirm (clSirmMessage clSirmMessageVersion mid starttime runtime brm bwm noc status
          xmlInfotext) =
        ⟨some clSirmMessageVersion, mid, starttime, runtime, brm, bwm, noc, status, some info⟩
  | .gmsh dl => (clXmlParseGmsh (clGmshMessage dl)).1 = dl

/-- An acknowledged message id is 0, and the memory of an information text is large enough. -/
def Unharmed : HeaderMessage → Prop
  | .mih .. => True
  | .am mid => mid = 0
  | .sirm _ _ _ _ _ _ _ info => ¬ EscapeOverflows info
  | .gmsh _ => True

end HeaderMessage

/-- A value between its tags, and what follows. -/
def valuePieces (n : String) (v : List Char) (rest : List Piece) : List Piece :=
  .tag n.toList :: .text v :: .tag ('/' :: n.toList) :: rest

def mihPieces (mid dl df mat tag rid : List Char) : List Piece :=
  valuePieces "mid" mid <| valuePieces "dl" dl <| valuePieces "df" df <| valuePieces "mat" mat <|
    valuePieces "tag" tag <| valuePieces "rid" rid [.tag "/mih".toList]

def amPieces (mid : List Char) : List Piece := valuePieces "mid" mid [.tag "/am".toList]

def sirmPieces (mid starttime runtime brm bwm noc status info : List Char) : List Piece :=
  valuePieces "mid" mid <| valuePieces "starttime" starttime <| valuePieces "runtime" runtime <|
    .tag "application".toList :: .tag "messages".toList ::
    (valuePieces "brm" brm <| valuePieces "bwm" bwm <|
    .tag "/messages".toList :: .tag "connections".toList :: (valuePieces "noc" noc <|
    .tag "/connections".toList :: (valuePieces "status" status <| .tag "/application".toList ::
    valuePieces "info" info [.tag "/sirm".toList])))

section Texts
variable {mid dl tag rid starttime runtime brm bwm noc status : ℕ} {df mat info version : List Char}

theorem clMihMessage_eq : clMihMessage version mid dl df mat tag rid = versionedText "mih".toList
    version (mihPieces (formatLd mid) (formatLd dl) df mat (formatLd tag) (formatLd rid)) := by
  unfold clMihMessage
  generalize formatLd mid = mid', formatLd dl = dl', formatLd tag = tag', formatLd rid = rid'
  simp [versionedText, versionTag, mihPieces, valuePieces, renderAll, Piece.render]

theorem clAmMessage_eq : clAmMessage version mid =
    versionedText "am".toList version (amPieces (formatLd mid)) := by
  unfold clAmMessage
  generalize formatLd mid = mid'
  simp [versionedText, versionTag, amPieces, valuePieces, renderAll, Piece.render]

set_option maxRecDepth 2000 in
theorem clSirmMessage_eq : clSirmMessage version mid starttime runtime brm bwm noc status info =
    versionedText "sirm".toList version
      (sirmPieces (formatLd mid) (formatLd starttime) (formatLd runtime) (formatLd brm)
        (formatLd bwm) (formatLd noc) (formatLd status) info) := by
  unfold clSirmMessage
  generalize formatLd mid = mid', formatLd starttime = starttime', formatLd runtime = runtime',
    formatLd brm = brm', formatLd bwm = bwm', formatLd noc = noc', formatLd status = status'
  simp [versionedText, versionTag, sirmPieces, valuePieces, renderAll, Piece.render]

end Texts

section Plain
variable {mid dl df mat tag rid starttime runtime brm bwm noc status info : List Char}

theorem valuePieces_plain {n : String} {v : List Char} {rest : List Piece}
    (hopen : (Piece.tag n.toList).Plain) (hclose : (Piece.tag ('/' :: n.toList)).Plain)
    (hv : (Piece.text v).Plain) (hrest : ∀ piece ∈ rest, piece.Plain) :
    ∀ piece ∈ valuePieces n v rest, piece.Plain :=
  List.forall_mem_cons.mpr ⟨hopen, List.forall_mem_cons.mpr ⟨hv,
    List.forall_mem_cons.mpr ⟨hclose, hrest⟩⟩⟩

theorem tag_plain {content : List Char} {rest : List Piece} (htag : (Piece.tag content).Plain)
    (hrest : ∀ piece ∈ rest, piece.Plain) : ∀ piece ∈ .tag content :: rest, piece.Plain :=
  List.forall_mem_cons.mpr ⟨htag, hrest⟩

theorem mih_plain (hmid : (Piece.text mid).Plain) (hdl : (Piece.text dl).Plain)
    (hdf : (Piece.text df).Plain) (hmat : (Piece.text mat).Plain) (htag : (Piece.text tag).Plain)
    (hrid : (Piece.text rid).Plain) :
    PlainMessage mihNames "mih".toList clMihMessageVersion (mihPieces mid dl df mat tag rid) := by
  refine ⟨by decide, by decide, by decide, by decide, ?_⟩
  apply valuePieces_plain (by decide) (by decide) hmid
  apply valuePieces_plain (by decide) (by decide) hdl
  apply valuePieces_plain (by decide) (by decide) hdf
  apply valuePieces_plain (by decide) (by decide) hmat
  apply valuePieces_plain (by decide) (by decide) htag
  exact valuePieces_plain (by decide) (by decide) hrid (by decide)

theorem am_plain (hmid : (Piece.text mid).Plain) :
    PlainMessage ["mid".toList] "am".toList clAmMessageVersion (amPieces mid) :=
  ⟨by decide, by decide, by decide, by decide,
    valuePieces_plain (by decide) (by decide) hmid (by decide)⟩

theorem sirm_plain (hmid : (Piece.text mid).Plain) (hstarttime : (Piece.text starttime).Plain)
    (hruntime : (Piece.text runtime).Plain) (hbrm : (Piece.text brm).Plain)
    (hbwm : (Piece.text bwm).Plain) (hnoc : (Piece.text noc).Plain)
    (hstatus : (Piece.text status).Plain) (hinfo : (Piece.text info).Plain) :
    PlainMessage sirmNames "sirm".toList clSirmMessageVersion
      (sirmPieces mid starttime runtime brm bwm noc status info) := by
  refine ⟨by decide, by decide, by decide, by decide, ?_⟩
  apply valuePieces_plain (by decide) (by decide) hmid
  apply valuePieces_plain (by decide) (by decide) hstarttime
  apply valuePieces_plain (by decide) (by decide) hruntime
  refine tag_plain (by decide) (tag_plain (by decide) ?_)
  apply valuePieces_plain (by decide) (by decide) hbrm
  apply valuePieces_plain (by decide) (by decide) hbwm
  refine tag_plain (by decide) (tag_plain (by decide) ?_)
  apply valuePieces_plain (by decide) (by decide) hnoc
  apply tag_plain (by decide)
  apply valuePieces_plain (by decide) (by decide) hstatus
  apply tag_plain (by decide)
  exact valuePieces_plain (by decide) (by decide) hinfo (by decide)

theorem mih_nodup : (tagsOf (mihPieces mid dl df mat tag rid)).Nodup := by
  have htags : tagsOf (mihPieces mid dl df mat tag rid) = ["mid".toList, '/' :: "mid".toList,
      "dl".toList, '/' :: "dl".toList, "df".toList, '/' :: "df".toList, "mat".toList,
      '/' :: "mat".toList, "tag".toList, '/' :: "tag".toList, "rid".toList, '/' :: "rid".toList,
      "/mih".toList] := rfl
  rw [htags]
  decide

theorem am_nodup : (tagsOf (amPieces mid)).Nodup := by
  have htags : tagsOf (amPieces mid) = ["mid".toList, '/' :: "mid".toList, "/am".toList] := rfl
  rw [htags]
  decide

theorem sirm_nodup :
    (tagsOf (sirmPieces mid starttime runtime brm bwm noc status info)).Nodup := by
  have htags : tagsOf (sirmPieces mid starttime runtime brm bwm noc status info) =
      ["mid".toList, '/' :: "mid".toList, "starttime".toList, '/' :: "starttime".toList,
      "runtime".toList, '/' :: "runtime".toList, "application".toList, "messages".toList,
      "brm".toList, '/' :: "brm".toList, "bwm".toList, '/' :: "bwm".toList, "/messages".toList,
      "connections".toList, "noc".toList, '/' :: "noc".toList, "/connections".toList,
      "status".toList, '/' :: "status".toList, "/application".toList, "info".toList,
      '/' :: "info".toList, "/sirm".toList] := rfl
  rw [htags]
  decide +kernel

theorem text_plain {m : ℕ} (h : m < 2 ^ 63) : (Piece.text (formatLd m)).Plain := fun c hc =>
  ⟨(isDigit_ne (formatLd_digits h c hc)).1, (isDigit_ne (formatLd_digits h c hc)).2.1⟩

end Plain

theorem mih_survives {mid dl tag rid : ℕ} {df : ClXmlMihDataFormat} {mat : ClXmlAckType}
    (hvalid : (HeaderMessage.mih mid dl df mat tag rid).Valid) :
    (HeaderMessage.mih mid dl df mat tag rid).Survives := by
  obtain ⟨hmid, hdl, hdf, hmat, htag, hrid⟩ := hvalid
  have hdl' : dl < 2 ^ 63 := by
    unfold clDefineMaxMessageLength at hdl
    omega
  have hdfPlain := @dfString_ne df
  have hmatPlain := @matString_ne mat
  have hplain := mih_plain (text_plain hmid) (text_plain hdl')
    (fun c hc => ⟨(hdfPlain c hc).1, (hdfPlain c hc).2.1⟩)
    (fun c hc => ⟨(hmatPlain c hc).1, (hmatPlain c hc).2.1⟩) (text_plain htag) (text_plain hrid)
  change clXmlParseMih (clMihMessage clMihMessageVersion mid dl (clComGetMihDfString df)
    (clComGetMihMatString mat) tag rid) = _
  rw [clMihMessage_eq]
  have hlast : (mihPieces (formatLd mid) (formatLd dl) (clComGetMihDfString df)
    (clComGetMihMatString mat) (formatLd tag) (formatLd rid)).getLast? = some (.tag "/mih".toList) :=
      rfl
  have hnodup := @mih_nodup (formatLd mid) (formatLd dl) (clComGetMihDfString df)
    (clComGetMihMatString mat) (formatLd tag) (formatLd rid)
  have hat₁ := ValueAt.of_nodup (k := 0) hnodup rfl rfl rfl
  have hat₂ := ValueAt.of_nodup (k := 3) hnodup rfl rfl rfl
  have hat₃ := ValueAt.of_nodup (k := 6) hnodup rfl rfl rfl
  have hat₄ := ValueAt.of_nodup (k := 9) hnodup rfl rfl rfl
  have hat₅ := ValueAt.of_nodup (k := 12) hnodup rfl rfl rfl
  have hat₆ := ValueAt.of_nodup (k := 15) hnodup rfl rfl rfl
  generalize mihPieces (formatLd mid) (formatLd dl) (clComGetMihDfString df)
    (clComGetMihMatString mat) (formatLd tag) (formatLd rid) = pieces at *
  obtain ⟨hbuffer, hbegin⟩ := scanMessage_scanned (fun tagBegin _ => tagBegin - 1) hplain
  have hversion := clXmlParseVersion_marked hplain hlast
  -- the values in the order in which they are read
  obtain ⟨_, hread₁, hterm₁⟩ := exists_readValue hplain (by decide) (by decide) hat₁ hmid
    Terminated.refl
  obtain ⟨_, hread₂, hterm₂⟩ := exists_readValue hplain (by decide) (by decide) hat₅ htag hterm₁
  obtain ⟨_, hread₃, hterm₃⟩ := exists_readValue hplain (by decide) (by decide) hat₆ hrid hterm₂
  obtain ⟨_, hread₄, hterm₄⟩ := exists_readValue hplain (by decide) (by decide) hat₂ hdl' hterm₃
  obtain ⟨_, hread₅, hterm₅⟩ := exists_readText hplain (by decide) (by decide) hat₃
    (fun c hc => ⟨(hdfPlain c hc).1, (hdfPlain c hc).2.2⟩) hterm₄
  obtain ⟨_, hread₆, -⟩ := exists_readText hplain (by decide) (by decide) hat₄
    (fun c hc => ⟨(hmatPlain c hc).1, (hmatPlain c hc).2.2⟩) hterm₅
  simp only [clXmlParseMih, hbuffer, hbegin, hversion, hread₁, hread₂, hread₃, hread₄, hread₅, hread₆,
    Option.map_some, Option.getD_some, parsedDf_string hdf, parsedMat_string hmat,
    if_neg (not_lt.mpr hdl)]

/-- The status information is read back when its text fits into the memory. -/
theorem sirm_survives {mid starttime runtime brm bwm noc status : ℕ} {info : List Char}
    (hvalid : (HeaderMessage.sirm mid starttime runtime brm bwm noc status info).Valid) :
    (HeaderMessage.sirm mid starttime runtime brm bwm noc status info).Survives ↔
      ¬ EscapeOverflows info := by
  obtain ⟨hmid, hstarttime, hruntime, hbrm, hbwm, hnoc, hstatus, hinfo⟩ := hvalid
  change (∃ xmlInfotext, clComTransformString2XML info = some xmlInfotext ∧
    clXmlParseSirm (clSirmMessage clSirmMessageVersion mid starttime runtime brm bwm noc status
      xmlInfotext) = _) ↔ _
  rw [clComTransformString2XML_eq]
  by_cases hover : EscapeOverflows info
  · simp [hover]
  refine iff_of_true ⟨info.flatMap escapeChar, if_neg hover, ?_⟩ hover
  have hescaped : ∀ c ∈ info.flatMap escapeChar, c ≠ '<' ∧ c ≠ '>' ∧ c ≠ '\x00' := by
    intro c hc
    obtain ⟨x, hx, hcx⟩ := List.mem_flatMap.mp hc
    exact escapeChar_ne (hinfo x hx) c hcx
  have hplain := sirm_plain (text_plain hmid) (text_plain hstarttime) (text_plain hruntime)
    (text_plain hbrm) (text_plain hbwm) (text_plain hnoc) (text_plain hstatus)
    (fun c hc => ⟨(hescaped c hc).1, (hescaped c hc).2.1⟩)
  have hlast : (sirmPieces (formatLd mid) (formatLd starttime) (formatLd runtime)
    (formatLd brm) (formatLd bwm) (formatLd noc) (formatLd status)
      (info.flatMap escapeChar)).getLast? = some (.tag "/sirm".toList) := rfl
  rw [clSirmMessage_eq]
  have hnodup := @sirm_nodup (formatLd mid) (formatLd starttime) (formatLd runtime) (formatLd brm)
    (formatLd bwm) (formatLd noc) (formatLd status) (info.flatMap escapeChar)
  have hat₁ := ValueAt.of_nodup (k := 0) hnodup rfl rfl rfl
  have hat₂ := ValueAt.of_nodup (k := 3) hnodup rfl rfl rfl
  have hat₃ := ValueAt.of_nodup (k := 6) hnodup rfl rfl rfl
  have hat₄ := ValueAt.of_nodup (k := 11) hnodup rfl rfl rfl
  have hat₅ := ValueAt.of_nodup (k := 14) hnodup rfl rfl rfl
  have hat₆ := ValueAt.of_nodup (k := 19) hnodup rfl rfl rfl
  have hat₇ := ValueAt.of_nodup (k := 23) hnodup rfl rfl rfl
  have hat₈ := ValueAt.of_nodup (k := 27) hnodup rfl rfl rfl
  generalize sirmPieces (formatLd mid) (formatLd starttime) (formatLd runtime) (formatLd brm)
    (formatLd bwm) (formatLd noc) (formatLd status) (info.flatMap escapeChar) = pieces at *
  obtain ⟨hbuffer, hbegin⟩ := scanMessage_scanned (fun tagBegin _ => tagBegin - 1) hplain
  have hversion := clXmlParseVersion_marked hplain hlast
  obtain ⟨_, hread₈, hterm₈⟩ := exists_readText hplain (by decide) (by decide) hat₈
    (fun c hc => ⟨(hescaped c hc).1, (hescaped c hc).2.2⟩) Terminated.refl
  obtain ⟨_, hread₁, hterm₁⟩ := exists_readValue hplain (by decide) (by decide) hat₁ hmid hterm₈
  obtain ⟨_, hread₂, hterm₂⟩ := exists_readValue hplain (by decide) (by decide) hat₂ hstarttime
    hterm₁
  obtain ⟨_, hread₃, hterm₃⟩ := exists_readValue hplain (by decide) (by decide) hat₃ hruntime hterm₂
  obtain ⟨_, hread₄, hterm₄⟩ := exists_readValue hplain (by decide) (by decide) hat₄ hbrm hterm₃
  obtain ⟨_, hread₅, hterm₅⟩ := exists_readValue hplain (by decide) (by decide) hat₅ hbwm hterm₄
  obtain ⟨_, hread₆, hterm₆⟩ := exists_readValue hplain (by decide) (by decide) hat₆ hnoc hterm₅
  obtain ⟨_, hread₇, -⟩ := exists_readValue hplain (by decide) (by decide) hat₇ hstatus hterm₆
  simp only [clXmlParseSirm, hbuffer, hbegin, hversion, hread₁, hread₂, hread₃, hread₄, hread₅,
    hread₆, hread₇, hread₈, Option.map_some, clComTransformXML2String_escape]

theorem clXmlParseAm_message {mid : ℕ} (hmid : mid < 2 ^ 63) :
    clXmlParseAm (clAmMessage clAmMessageVersion mid) = ⟨some clAmMessageVersion, mid / 10⟩ := by
  have hplain := am_plain (text_plain hmid)
  have hlast : (amPieces (formatLd mid)).getLast? = some (.tag "/am".toList) := rfl
  have hat : ValueAt (amPieces (formatLd mid)) 0 "mid".toList (formatLd mid) :=
    .of_nodup am_nodup rfl rfl rfl
  rw [clAmMessage_eq]
  generalize amPieces (formatLd mid) = pieces at *
  obtain ⟨hbuffer, hbegin⟩ := scanMessage_scanned (fun tagBegin _ => tagBegin - 2) hplain
  obtain ⟨hbegins, hends⟩ := scanMessage_value (fun tagBegin _ => tagBegin - 2) hplain
    (List.mem_singleton.mpr rfl) (by decide) hat
  have hversion := clXmlParseVersion_marked hplain hlast
  obtain ⟨before, after, hsplit, hlen⟩ :=
    @versionedMarked_split "am".toList clAmMessageVersion _ _ _ _ hat
  have hne : formatLd mid ≠ [] := by
    rw [formatLd_eq hmid]
    exact Nat.toDigits_ne_nil
  have hlast' : (formatLd mid).dropLast ++ [(formatLd mid).getLast hne] = formatLd mid :=
    List.dropLast_append_getLast hne
  have hbuf : versionedMarked "am".toList clAmMessageVersion pieces =
      before ++ ((formatLd mid).dropLast ++ (formatLd mid).getLast hne :: '<' :: after) := by
    conv_lhs => rw [hsplit, ← hlast']
    simp
  have hpos : 0 < valueStart "am".toList clAmMessageVersion pieces 0 "mid".toList := by
    rw [valueStart]
    omega
  have hend : valueStart "am".toList clAmMessageVersion pieces 0 "mid".toList +
      (formatLd mid).length + 1 - 2 = valueStart "am".toList clAmMessageVersion pieces 0
        "mid".toList + (formatLd mid).dropLast.length := by
    have hpos' := List.length_pos_of_ne_nil hne
    rw [List.length_dropLast]
    omega
  have hread := readText_of_eq hbuf hlen hpos (fun c hc =>
    (isDigit_ne (formatLd_digits hmid c (List.dropLast_subset _ hc))).2.2.2)
  simp only [clXmlParseAm, hbuffer, hbegin, hversion, hbegins, hends, hend, readValue, hread,
    Option.map_some, Option.getD_some, clUtilGetUlongValue_dropLast hmid]

theorem gmsh_scan {d : List Char} (hd : ∀ c ∈ d, c ≠ '<' ∧ c ≠ '>' ∧ c ≠ '=' ∧ c ≠ '\x00') :
    let scan := scanFrom false gmshTag
      (.init ("<gmsh><dl>".toList ++ d ++ "</dl></gmsh>".toList ++ ['\x00'])) 0
      (("<gmsh><dl>".toList ++ d ++ "</dl></gmsh>".toList).length + 1)
    scan.buffer = "<gmsh\x00<dl\x00".toList ++ (d ++ '<' :: '/' :: 'd' :: 'l' :: '\x00' ::
        "</gmsh\x00\x00".toList) ∧
      scan.begins "dl".toList = 10 ∧ scan.ends "dl".toList = d.length + 13 := by
  have hbuf₀ : "<gmsh><dl>".toList ++ d ++ "</dl></gmsh>".toList ++ ['\x00'] =
      [] ++ '<' :: ("gmsh".toList ++ '>' :: ('<' :: ("dl".toList ++ '>' :: (d ++ '<' ::
        ("/dl".toList ++ '>' :: ('<' :: ("/gmsh".toList ++ ['>', '\x00']))))))) := by
    simp
  have hcount : ("<gmsh><dl>".toList ++ d ++ "</dl></gmsh>".toList).length + 1 =
      6 + (4 + (d.length + (5 + (7 + 1)))) := by
    simp
    omega
  -- the buffer behind each of the tags
  let end₁ := '<' :: ("dl".toList ++ '>' :: (d ++ '<' :: ("/dl".toList ++ '>' :: ('<' ::
    ("/gmsh".toList ++ ['>', '\x00'])))))
  let end₂ := d ++ '<' :: ("/dl".toList ++ '>' :: ('<' :: ("/gmsh".toList ++ ['>', '\x00'])))
  let scan₁ : TagScan := { TagScan.init ("<gmsh\x00".toList ++ end₁) with tagBegin := 1 }
  let scan₂ : TagScan := { TagScan.init ("<gmsh\x00<dl\x00".toList ++ end₂) with
    tagBegin := 7
    begins := Function.update (fun _ => 0) "dl".toList 10 }
  have h₁ : scanFrom false gmshTag (.init ([] ++ '<' :: ("gmsh".toList ++ '>' :: end₁))) 0 6 =
      scan₁ :=
    @scanFrom_tag false gmshTag (.init ([] ++ '<' :: ("gmsh".toList ++ '>' :: end₁))) [] "gmsh".toList
      end₁ rfl (by decide) rfl
  have h₂ : scanFrom false gmshTag scan₁ (0 + 6) 4 = scan₂ :=
    @scanFrom_tag false gmshTag scan₁ "<gmsh\x00".toList "dl".toList end₂ rfl (by decide) rfl
  have h₃ : scanFrom false gmshTag scan₂ (0 + 6 + 4) d.length = scan₂ :=
    @scanFrom_plain false gmshTag scan₂ "<gmsh\x00<dl\x00".toList d _ rfl rfl
      (fun c hc => ⟨(hd c hc).1, (hd c hc).2.1, Or.inl (hd c hc).2.2.1⟩)
  -- the closing tags, behind the text
  let pre₂ := "<gmsh\x00<dl\x00".toList ++ d
  let end₃ := '<' :: ("/gmsh".toList ++ ['>', '\x00'])
  let scan₃ : TagScan := { scan₂ with
    buffer := pre₂ ++ '<' :: ("/dl".toList ++ '\x00' :: end₃)
    tagBegin := pre₂.length + 1
    ends := Function.update (fun _ => 0) "dl".toList (pre₂.length + 3) }
  have hpre₂ : 0 + 6 + 4 + d.length = pre₂.length := by
    simp [pre₂]
    omega
  have hbuf₂ : scan₂.buffer = pre₂ ++ '<' :: ("/dl".toList ++ '>' :: end₃) := by
    simp [scan₂, pre₂, end₂, end₃, TagScan.init]
  have h₄ : scanFrom false gmshTag scan₂ (0 + 6 + 4 + d.length) 5 = scan₃ := by
    rw [hpre₂]
    exact @scanFrom_tag false gmshTag scan₂ pre₂ "/dl".toList end₃ rfl (by decide) hbuf₂
  let pre₃ := pre₂ ++ "</dl\x00".toList
  have hpre₃ : 0 + 6 + 4 + d.length + 5 = pre₃.length := by
    rw [hpre₂]
    simp [pre₃]
  have hbuf₃ : scan₃.buffer = pre₃ ++ '<' :: ("/gmsh".toList ++ '>' :: ['\x00']) := by
    simp [scan₃, pre₃, end₃]
  have h₅ := @scanFrom_tag false gmshTag scan₃ pre₃ "/gmsh".toList ['\x00'] rfl (by decide) hbuf₃
  rw [hbuf₀, hcount]
  intro scan
  have hscan : scan = scanStep false gmshTag
      (scanFrom false gmshTag scan₃ pre₃.length ("/gmsh".toList.length + 2))
      (pre₃.length + 7) := by
    simp only [scan]
    rw [scanFrom_add, h₁, scanFrom_add, h₂, scanFrom_add, h₃, scanFrom_add, h₄, scanFrom_add,
      scanFrom_one, hpre₃]
    rfl
  rw [hscan, h₅]
  refine ⟨?_, rfl, ?_⟩
  · change pre₃ ++ '<' :: ("/gmsh".toList ++ '\x00' :: ['\x00']) = _
    simp [pre₃, pre₂]
  · change pre₂.length + 3 = d.length + 13
    simp [pre₂]

theorem gmsh_survives {dl : ℕ} (hvalid : (HeaderMessage.gmsh dl).Valid) :
    (HeaderMessage.gmsh dl).Survives := by
  have hdl : dl < 2 ^ 63 := by
    have hle : dl ≤ clDefineMaxMessageLength := hvalid
    unfold clDefineMaxMessageLength at hle
    omega
  have hhead : ∀ c ∈ "</d".toList.head?, c.isDigit = false := by
    rintro c ⟨⟩
    rfl
  have hvalue := @clUtilGetUlongValue_formatLd dl "</d".toList hdl hhead
  have hdigits := fun c hc => isDigit_ne (formatLd_digits hdl c hc)
  change (clXmlParseGmsh ("<gmsh><dl>".toList ++ formatLd dl ++ "</dl></gmsh>".toList)).1 = dl
  generalize formatLd dl = d at *
  obtain ⟨hbuffer, hbegins, hends⟩ := gmsh_scan hdigits
  have hnull : ∀ c ∈ d ++ "</d".toList, c ≠ '\x00' := by
    have hend : ∀ c ∈ "</d".toList, c ≠ '\x00' := forall_chars (by decide)
    intro c hc
    rcases List.mem_append.mp hc with hc | hc
    · exact (hdigits c hc).2.2.2
    · exact hend c hc
  -- the value ends in the closing tag, behind its name
  have hread := @readText_of_eq ("<gmsh\x00<dl\x00".toList ++ (d ++ '<' :: '/' :: 'd' :: 'l' ::
    '\x00' :: "</gmsh\x00\x00".toList)) (d ++ "</d".toList) 10 "<gmsh\x00<dl\x00".toList
    ('\x00' :: "</gmsh\x00\x00".toList) 'l' (by simp) rfl (by decide) hnull
  have hend : 10 + (d ++ "</d".toList).length = d.length + 13 := by
    rw [List.length_append]
    have hlen : "</d".toList.length = 3 := rfl
    omega
  rw [hend] at hread
  simp only [clXmlParseGmsh, hbuffer, hbegins, hends, readValue, hread, Option.map_some,
    Option.getD_some, hvalue]

/-- The messages that survive the wire. -/
theorem headerMessage_survives_iff {message : HeaderMessage} (hvalid : message.Valid) :
    message.Survives ↔ message.Unharmed := by
  cases message with
  | mih mid dl df mat tag rid => exact iff_of_true (mih_survives hvalid) trivial
  | am mid =>
      change clXmlParseAm (clAmMessage clAmMessageVersion mid) = _ ↔ mid = 0
      rw [clXmlParseAm_message hvalid, ClComAm.mk.injEq, and_iff_right rfl]
      omega
  | sirm mid starttime runtime brm bwm noc status info => exact sirm_survives hvalid
  | gmsh dl => exact iff_of_true (gmsh_survives hvalid) trivial

theorem mih_survives_iff :
    (HeaderMessage.mih 123 456 .sirm .sync 7 0).Survives ↔
      (HeaderMessage.mih 123 456 .sirm .sync 7 0).Unharmed :=
  headerMessage_survives_iff ⟨by decide, by decide, by decide, by decide, by decide, by decide⟩

/-- The message with the id 123 is acknowledged as the message 12. -/
theorem ackMessage_loses_digit : ¬ ∀ message : HeaderMessage, message.Valid → message.Survives := by
  intro h
  have hsurvives : clXmlParseAm (clAmMessage clAmMessageVersion 123) =
      ⟨some clAmMessageVersion, 123⟩ := h (.am 123) (show 123 < 2 ^ 63 by norm_num)
  rw [clXmlParseAm_message (by norm_num), ClComAm.mk.injEq] at hsurvives
  exact absurd hsurvives.2 (by decide)

end GridEngine
