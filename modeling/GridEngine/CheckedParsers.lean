import GridEngine.MessageHeaders

/-!
# Message parsers with checked accesses

The buffer of a message has no terminator behind it. Every access of the parsers is an indexing
that fails outside the buffer: a C string is read up to its terminator, a comparison stops at the
first difference, and the differences of `unsigned long` positions wrap around. The parsers of the
connect message (CM) and of its response (CRM) copy what stands between quotes into a buffer of 256
characters.
-/

namespace GridEngine.CheckedBuffer

/-- The difference of two words. -/
def wordSub (a b : ℕ) : ℕ := (a + 2 ^ 64 - b) % 2 ^ 64

/-- `buffer[i] = '\0'`. -/
def setNull (buffer : List Char) (i : ℕ) : Option (List Char) :=
  if i < buffer.length then some (buffer.set i '\x00') else none

/-- `strncmp` with a name and its length, from a place in the buffer on. -/
def strncmp : List Char → List Char → Option Bool
  | _, [] => some true
  | [], _ :: _ => none
  | c :: text, d :: name => if c = d then strncmp text name else some false

/-- `strcmp` with a name. -/
def strcmp : List Char → List Char → Option Bool
  | [], _ => none
  | c :: _, [] => some (c = '\x00')
  | c :: text, d :: name => if c = d then strcmp text name else some false

/-- The C string at a place in the buffer. -/
def stringAt : List Char → Option (List Char)
  | [] => none
  | c :: text => if c = '\x00' then some [] else (stringAt text).map (c :: ·)

/-- What `strchr` finds in front of a quote, if it finds one. -/
def beforeQuote : List Char → Option (Option (List Char))
  | [] => none
  | c :: text =>
      if c = '"' then some (some [])
      else if c = '\x00' then some none
      else (beforeQuote text).map (Option.map (c :: ·))

/-- `cl_xml_parse_is_version`, from the beginning of the tag on. -/
def clXmlParseIsVersion : List Char → Option Bool
  | [] => some false
  | c :: text =>
      if c = '>' then some false
      else
        match strncmp (c :: text) "version".toList with
        | none => none
        | some true => some true
        | some false => clXmlParseIsVersion text

/-- `cl_xml_parse_version`, behind a version that was found. -/
def clXmlParseVersion (buffer : List Char) (versionBegin : ℕ) :
    Option (Option (List Char) × List Char) :=
  if 0 < versionBegin then do
    let bufferLength := wordSub buffer.length versionBegin
    let buffer ← setNull buffer (versionBegin + wordSub bufferLength 1)
    let version ← beforeQuote (buffer.drop versionBegin)
    return (version, buffer)
  else some (none, buffer)

section Scan

/-- What a parser does with the tag of one value: the begin of the value from an opening tag, which
only the first such tag gives when `firstOnly` is set, and its end from a closing tag, both from
the beginning of the tag and the pointer. -/
structure TagRule where
  name : List Char
  opening : ℕ → ℕ → ℕ
  firstOnly : Bool
  closing : ℕ → ℕ → ℕ

def TagRule.apply (rule : TagRule) (closingTag : Bool) (bufPointer : ℕ) (scan : TagScan) :
    TagScan :=
  if closingTag then
    { scan with
      ends := Function.update scan.ends rule.name (rule.closing scan.tagBegin bufPointer) }
  else if rule.firstOnly = true ∧ scan.begins rule.name ≠ 0 then scan
  else { scan with
    begins := Function.update scan.begins rule.name (rule.opening scan.tagBegin bufPointer) }

/-- The comparisons with the names of the values, one after the other. -/
def firstHit (compare : List Char → List Char → Option Bool) (text : List Char) :
    List TagRule → Option (Option TagRule)
  | [] => some none
  | rule :: rules =>
      match compare text rule.name with
      | none => none
      | some true => some (some rule)
      | some false => firstHit compare text rules

/-- The tag of a value. -/
def valueTag (compare : List Char → List Char → Option Bool) (rules : List TagRule)
    (scan : TagScan) (bufPointer : ℕ) : Option TagScan := do
  let first ← scan.buffer[scan.tagBegin]?
  let closingTag : Bool := first = '/'
  let charptr := if closingTag then scan.tagBegin + 1 else scan.tagBegin
  let hit ← firstHit compare (scan.buffer.drop charptr) rules
  return match hit with
    | some rule => rule.apply closingTag bufPointer scan
    | none => scan

/-- The comparison with the last tag of a message; `moves` says whether the pointer is moved on
twice behind it. -/
def lastTag (name : List Char) (moves : Bool) (scan : TagScan) (_ : ℕ) : Option TagScan := do
  let hit ← strcmp (scan.buffer.drop scan.tagBegin) name
  return if hit = true ∧ moves = true then { scan with skip := true } else scan

/-- One turn of a parser's loop. -/
def scanStep (onTag : TagScan → ℕ → Option TagScan) (scan : TagScan) (bufPointer : ℕ) :
    Option TagScan :=
  if scan.skip then some { scan with skip := false }
  else do
    let c ← scan.buffer[bufPointer]?
    if c = '=' then
      if scan.inTag = true ∧ scan.versionBegin = 0 then
        let found ← clXmlParseIsVersion (scan.buffer.drop scan.tagBegin)
        return if found then { scan with versionBegin := bufPointer + 2 } else scan
      else return scan
    else if c = '<' then return scan.opened bufPointer
    else if c = '>' then
      if scan.tagBegin < bufPointer - 1 ∧ 0 < scan.tagBegin then
        let buffer ← setNull scan.buffer bufPointer
        onTag { scan with buffer := buffer, inTag := false } bufPointer
      else return { scan with inTag := false }
    else return scan

/-- The loop over `count` positions from `bufPointer` on. -/
def scanFrom (onTag : TagScan → ℕ → Option TagScan) (scan : TagScan) (bufPointer count : ℕ) :
    Option TagScan :=
  (List.range' bufPointer count).foldlM (scanStep onTag) scan

def scanBuffer (onTag : TagScan → ℕ → Option TagScan) (buffer : List Char) : Option TagScan :=
  scanFrom onTag (.init buffer) 0 buffer.length

end Scan

section Values

/-- A value between its tags, when both were found. -/
def readText (buffer : List Char) (start fin : ℕ) :
    Option (Option (List Char) × List Char) :=
  if 0 < start ∧ start ≤ fin then do
    let buffer ← setNull buffer fin
    let text ← stringAt (buffer.drop start)
    return (some text, buffer)
  else some (none, buffer)

/-- `isspace`. -/
def isSpace (c : Char) : Bool := c = ' ' || ('\t' ≤ c && c ≤ '\r')

/-- The decimal number at the beginning of a text, at most the greatest word. -/
def leadingNumber (text : List Char) : ℕ :=
  min (Nat.ofDigitChars 10 (text.takeWhile Char.isDigit) 0) (2 ^ 64 - 1)

/-- `cl_util_get_ulong_value`: `sscanf` passes over blanks and takes a sign. -/
def clUtilGetUlongValue (text : List Char) : ℕ :=
  let text := text.dropWhile isSpace
  if text.head? = some '-' then
    let digits := text.tail
    if leadingNumber digits = 2 ^ 64 - 1 then 2 ^ 64 - 1 else wordSub 0 (leadingNumber digits)
  else if text.head? = some '+' then leadingNumber text.tail
  else leadingNumber text

/-- The number that was read, 0 if there was none. -/
def readValue (buffer : List Char) (start fin : ℕ) : Option (ℕ × List Char) := do
  let (text, buffer) ← readText buffer start fin
  return ((text.map clUtilGetUlongValue).getD 0, buffer)

/-- The loop that copies what stands between two quotes into `help_buf`, over the rest of the
buffer from the position `i` on. -/
def copyQuoted (fin : ℕ) : List Char → ℕ → Bool → List Char → Option (ℕ × List Char)
  | [], i, _, helpBuf => if i ≤ fin ∧ helpBuf.length < 254 then none else some (i, helpBuf)
  | c :: text, i, inQuotes, helpBuf =>
      if i ≤ fin ∧ helpBuf.length < 254 then
        if c = '"' then
          if inQuotes then some (i + 1, helpBuf) else copyQuoted fin text (i + 1) true helpBuf
        else copyQuoted fin text (i + 1) inQuotes (if inQuotes then helpBuf ++ [c] else helpBuf)
      else some (i, helpBuf)

/-- The loop that copies everything into `help_buf`. -/
def copyAll (fin : ℕ) : List Char → ℕ → List Char → Option (List Char)
  | [], i, helpBuf => if i ≤ fin ∧ helpBuf.length < 254 then none else some helpBuf
  | c :: text, i, helpBuf =>
      if i ≤ fin ∧ helpBuf.length < 254 then copyAll fin text (i + 1) (helpBuf ++ [c])
      else some helpBuf

/-- The fields of `cl_com_endpoint_t` that the parsers set. -/
structure ClComEndpoint where
  compHost : List Char
  compName : List Char
  compId : ℕ
deriving DecidableEq, Repr

/-- The three loops over the attributes of an endpoint. -/
def readAttributes (buffer : List Char) (start fin : ℕ) : Option ClComEndpoint := do
  let (i, host) ← copyQuoted fin (buffer.drop start) start false []
  let (i, name) ← copyQuoted fin (buffer.drop i) i false []
  let (_, id) ← copyQuoted fin (buffer.drop i) i false []
  return ⟨cString host, cString name, clUtilGetUlongValue (cString id)⟩

/-- An endpoint, when both its tags were found. -/
def readEndpoint (buffer : List Char) (start fin : ℕ) : Option (Option ClComEndpoint) :=
  if 0 < start ∧ start ≤ fin then (readAttributes buffer start fin).map some else some none

end Values

/-- `cl_xml_data_format_t`. -/
inductive ClXmlDataFormat
  | undefined | bin | xml
deriving DecidableEq, Repr

/-- `cl_xml_connection_type_t`. -/
inductive ClXmlConnectionType
  | undefined | stream | message
deriving DecidableEq, Repr

/-- `cl_xml_connection_autoclose_t`. -/
inductive ClXmlConnectionAutoclose
  | undefined | enabled | disabled
deriving DecidableEq, Repr

/-- `cl_xml_connection_status_t`. -/
inductive ClXmlConnectionStatus
  | undefined | connected | denied | endpointNotUnique | unsupported
deriving DecidableEq, Repr

/-- The comparisons in `cl_xml_parse_CM`. -/
def parsedDataFormat (text : List Char) : ClXmlDataFormat :=
  if text = "bin".toList then .bin else if text = "xml".toList then .xml else .undefined

def parsedConnectionType (text : List Char) : ClXmlConnectionType :=
  if text = "stream".toList then .stream
  else if text = "message".toList then .message
  else .undefined

def parsedAutoclose (text : List Char) : ClXmlConnectionAutoclose :=
  if text = "enabled".toList then .enabled
  else if text = "disabled".toList then .disabled
  else .undefined

/-- The comparisons in `cl_xml_parse_CRM`. -/
def parsedStatus (text : List Char) : ClXmlConnectionStatus :=
  if text = "connected".toList then .connected
  else if text = "access denied".toList then .denied
  else if text = "unsupported data format".toList then .unsupported
  else if text = "endpoint not unique".toList then .endpointNotUnique
  else .undefined

/-- `CL_RETVAL_OK`, `CL_RETVAL_UNKNOWN` and `CL_RETVAL_MAX_MESSAGE_LENGTH_ERROR`. -/
inductive ParseRetval
  | ok | unknown | maxMessageLengthError
deriving DecidableEq, Repr

/-- `cl_com_CM_t`. -/
structure ClComCm where
  version : Option (List Char)
  df : ClXmlDataFormat
  ct : ClXmlConnectionType
  ac : ClXmlConnectionAutoclose
  port : ℕ
  dst : Option ClComEndpoint
  rdata : Option ClComEndpoint
deriving DecidableEq, Repr

/-- `cl_com_CRM_t`. -/
structure ClComCrm where
  version : Option (List Char)
  csCondition : ClXmlConnectionStatus
  csText : Option (List Char)
  formats : List Char
  rdata : Option ClComEndpoint
  params : Option (List Char)
deriving DecidableEq, Repr

/-- The rule of a value that begins behind its opening tag and ends in front of its closing tag. -/
def behindTag (name : String) (length : ℕ) : TagRule :=
  ⟨name.toList, fun _ bufPointer => bufPointer + 1, false,
    fun _ bufPointer => wordSub bufPointer length⟩

/-- The rule of a value that stands in its first opening tag. -/
def insideTag (name : String) (front length : ℕ) : TagRule :=
  ⟨name.toList, fun tagBegin _ => tagBegin + front, true,
    fun _ bufPointer => wordSub bufPointer length⟩

/-- The rule of a value in the messages about data. -/
def betweenTags (name : String) (back : ℕ) : TagRule :=
  ⟨name.toList, fun _ bufPointer => bufPointer - 1 + 2, false,
    fun tagBegin _ => wordSub tagBegin back⟩

def cmRules : List TagRule :=
  [behindTag "df" 4, behindTag "ct" 4, behindTag "port" 6, behindTag "ac" 4, insideTag "rdata" 0 7,
    insideTag "dst" 0 5]

/-- `cl_xml_parse_CM`. -/
def clXmlParseCm (buffer : List Char) : Option (ParseRetval × ClComCm) := do
  let scan ← scanBuffer (valueTag strncmp cmRules) buffer
  let text := fun buffer name => readText buffer (scan.begins name) (scan.ends name)
  let endpoint := fun buffer name => readEndpoint buffer (scan.begins name) (scan.ends name)
  let (df, buffer) ← text scan.buffer "df".toList
  let df := (df.map parsedDataFormat).getD .undefined
  let (ct, buffer) ← text buffer "ct".toList
  let ct := (ct.map parsedConnectionType).getD .undefined
  match ← text buffer "port".toList with
  | (none, _) => return (.unknown, ⟨none, df, ct, .undefined, 0, none, none⟩)
  | (some port, buffer) =>
      let port := clUtilGetUlongValue port
      let (ac, buffer) ← text buffer "ac".toList
      let ac := (ac.map parsedAutoclose).getD .undefined
      let (version, buffer) ← clXmlParseVersion buffer scan.versionBegin
      if version = none ∨ df = .undefined ∨ ct = .undefined ∨ ac = .undefined then
        return (.unknown, ⟨version, df, ct, ac, port, none, none⟩)
      else
        let rdata ← endpoint buffer "rdata".toList
        let dst ← endpoint buffer "dst".toList
        return (if dst = none ∨ rdata = none then .unknown else .ok,
          ⟨version, df, ct, ac, port, dst, rdata⟩)

def crmRules : List TagRule := [insideTag "cs" 3 5, insideTag "rdata" 6 8, insideTag "params" 7 9]

/-- The connection status and the text behind it. -/
def readStatus (buffer : List Char) (start fin : ℕ) :
    Option (ClXmlConnectionStatus × Option (List Char)) :=
  if 0 < start ∧ start ≤ fin then do
    let (i, condition) ← copyQuoted fin (buffer.drop start) start false []
    let text ← copyAll fin (buffer.drop (i + 1)) (i + 1) []
    return (parsedStatus (cString condition), some (cString text))
  else some (.undefined, none)

/-- The parameters. -/
def readParams (buffer : List Char) (start fin : ℕ) : Option (Option (List Char)) :=
  if 0 < start ∧ start ≤ fin then
    (copyAll fin (buffer.drop start) start []).map fun params => some (cString params)
  else some none

/-- `cl_xml_parse_CRM`. -/
def clXmlParseCrm (buffer : List Char) : Option ClComCrm := do
  let scan ← scanBuffer (valueTag strncmp crmRules) buffer
  let (version, buffer) ← clXmlParseVersion scan.buffer scan.versionBegin
  let (csCondition, csText) ← readStatus buffer (scan.begins "cs".toList) (scan.ends "cs".toList)
  let rdata ← readEndpoint buffer (scan.begins "rdata".toList) (scan.ends "rdata".toList)
  let params ← readParams buffer (scan.begins "params".toList) (scan.ends "params".toList)
  return ⟨version, csCondition, csText, "not supported".toList, rdata, params⟩

/-- `cl_xml_parse_MIH`. -/
def clXmlParseMih (buffer : List Char) : Option (ParseRetval × ClComMih) := do
  let scan ← scanBuffer (valueTag strcmp [betweenTags "mid" 1, betweenTags "dl" 1,
    betweenTags "df" 1, betweenTags "mat" 1, betweenTags "tag" 1, betweenTags "rid" 1]) buffer
  let value := fun buffer name => readValue buffer (scan.begins name) (scan.ends name)
  let text := fun buffer name => readText buffer (scan.begins name) (scan.ends name)
  let (version, buffer) ← clXmlParseVersion scan.buffer scan.versionBegin
  let (mid, buffer) ← value buffer "mid".toList
  let (tag, buffer) ← value buffer "tag".toList
  let (rid, buffer) ← value buffer "rid".toList
  let (dl, buffer) ← value buffer "dl".toList
  let (df, buffer) ← text buffer "df".toList
  let (mat, _) ← text buffer "mat".toList
  return (if clDefineMaxMessageLength < dl then .maxMessageLengthError else .ok,
    ⟨version, mid, dl, (df.map parsedDf).getD .undefined, (mat.map parsedMat).getD .undefined, tag,
      rid⟩)

/-- `cl_xml_parse_SIRM`. -/
def clXmlParseSirm (buffer : List Char) : Option ClComSirm := do
  let scan ← scanBuffer (valueTag strcmp [betweenTags "mid" 1, betweenTags "starttime" 1,
    betweenTags "runtime" 1, betweenTags "brm" 1, betweenTags "bwm" 1, betweenTags "noc" 1,
    betweenTags "status" 1, betweenTags "info" 1]) buffer
  let value := fun buffer name => readValue buffer (scan.begins name) (scan.ends name)
  let (version, buffer) ← clXmlParseVersion scan.buffer scan.versionBegin
  let (info, buffer) ← readText buffer (scan.begins "info".toList) (scan.ends "info".toList)
  let (mid, buffer) ← value buffer "mid".toList
  let (starttime, buffer) ← value buffer "starttime".toList
  let (runtime, buffer) ← value buffer "runtime".toList
  let (brm, buffer) ← value buffer "brm".toList
  let (bwm, buffer) ← value buffer "bwm".toList
  let (noc, buffer) ← value buffer "noc".toList
  let (status, _) ← value buffer "status".toList
  return ⟨version, mid, starttime, runtime, brm, bwm, noc, status,
    info.map clComTransformXML2String⟩

/-- `cl_xml_parse_AM`. -/
def clXmlParseAm (buffer : List Char) : Option ClComAm := do
  let scan ← scanBuffer (valueTag strcmp [betweenTags "mid" 2]) buffer
  let (version, buffer) ← clXmlParseVersion scan.buffer scan.versionBegin
  let (mid, _) ← readValue buffer (scan.begins "mid".toList) (scan.ends "mid".toList)
  return ⟨version, mid⟩

/-- The parsers of messages that consist of a version. -/
def parseVersionOnly (name : String) (moves : Bool) (buffer : List Char) :
    Option (Option (List Char)) := do
  let scan ← scanBuffer (lastTag name.toList moves) buffer
  let (version, _) ← clXmlParseVersion scan.buffer scan.versionBegin
  return version

/-- `cl_xml_parse_CCM`. -/
def clXmlParseCcm (buffer : List Char) : Option (Option (List Char)) :=
  parseVersionOnly "/ccm" false buffer

/-- `cl_xml_parse_CCRM`. -/
def clXmlParseCcrm (buffer : List Char) : Option (Option (List Char)) :=
  parseVersionOnly "/ccrm" false buffer

/-- `cl_xml_parse_SIM`. -/
def clXmlParseSim (buffer : List Char) : Option (Option (List Char)) :=
  parseVersionOnly "/sim" true buffer

end GridEngine.CheckedBuffer
