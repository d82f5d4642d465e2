import Lighttpd.CgiEnvironment

/-!
# Access log formats

`accesslog_parse_format` turns the text of `accesslog.format` into fields, `log_access_open`
reads the options of a field, and `log_access_write` writes one field after the other into
the log buffer. The digits of a fraction of a second are written backwards over zeros that
were appended before, and the text of a cookie is found by a scan over the header value; a
write before the buffer or a read behind the NUL of the value ends in no state.
-/

namespace Lighttpd

open CString

/-! ## Formats -/

/-- What a `%` field writes. -/
inductive FormatType
  | unset | unsupported | percent | remoteHost | remoteIdent | remoteUser | timestamp
  | requestLine | status | bytesOutNoHeader | header | remoteAddr | localAddr | cookie
  | timeUsedUs | env | filename | requestProtocol | requestMethod | serverPort | queryString
  | timeUsed | url | serverName | httpHost | connectionStatus | bytesIn | bytesOut
  | keepaliveCount | responseHeader | note
  deriving DecidableEq, Repr

/-- `fmap`, without its last row. -/
def fmap : List (UInt8 × FormatType) :=
  [(37, .percent), (104, .remoteHost), (108, .remoteIdent), (117, .remoteUser),
    (116, .timestamp), (114, .requestLine), (115, .status), (98, .bytesOutNoHeader),
    (105, .header), (97, .remoteAddr), (65, .localAddr), (66, .bytesOutNoHeader),
    (67, .cookie), (68, .timeUsedUs), (101, .env), (102, .filename), (72, .requestProtocol),
    (107, .keepaliveCount), (109, .requestMethod), (110, .note), (112, .serverPort),
    (80, .unsupported), (113, .queryString), (84, .timeUsed), (85, .url), (118, .serverName),
    (86, .httpHost), (88, .connectionStatus), (73, .bytesIn), (79, .bytesOut),
    (111, .responseHeader)]

/-- The row of `fmap` with a key. -/
def fmapFind (key : UInt8) : Option FormatType :=
  (fmap.find? fun m => m.1 = key).map Prod.snd

/-- The unit of a time field. -/
inductive TimeUnit
  | sec | msec | usec | nsec | msecFrac | usecFrac | nsecFrac
  deriving DecidableEq, Repr

/-- The option flags of a field: `FORMAT_FLAG_TIME_BEGIN`, the flag of a unit, and
`FORMAT_FLAG_PORT_REMOTE`. -/
structure FormatOpt where
  timeBegin : Bool
  timeUnit : Option TimeUnit
  portRemote : Bool
  deriving DecidableEq, Repr

/-- No flag. -/
def FormatOpt.zero : FormatOpt := ⟨false, none, false⟩

/-- A `format_field`: text, or what a conversion writes with its string and options. -/
inductive FormatField
  | string (s : Buffer)
  | format (field : FormatType) (s : Buffer) (opt : FormatOpt)
  deriving DecidableEq, Repr

/-- The string between two conversions, if there is one. -/
def literalField (text : Bytes) : List FormatField :=
  if text = [] then [] else [.string (some text)]

/-- The conversion behind a `%`, and how many bytes it takes. -/
def formatConversion (s : Bytes) : Option (FormatField × ℕ) :=
  if s.headD 0 = 60 ∨ s.headD 0 = 62 then
    if (s.drop 1).headD 0 = 0 then none
    else (fmapFind ((s.drop 1).headD 0)).map fun t => (.format t none .zero, 2)
  else if s.headD 0 = 123 then
    match memchr (s.drop 1) 125 with
    | none => none
    | some k =>
      if (s.drop (k + 2)).headD 0 = 0 then none
      else if k = 0 then none
      else
        (fmapFind ((s.drop (k + 2)).headD 0)).map fun t =>
          (.format t (some ((s.drop 1).take k)) .zero, k + 3)
  else if s.headD 0 = 0 then none
  else (fmapFind (s.headD 0)).map fun t => (.format t none .zero, 1)

/-- The loop of `accesslog_parse_format`: the text since the last conversion, and the bytes
to skip. -/
def parseFormatLoop (text : Bytes) : ℕ → Bytes → Option (List FormatField)
  | _, [] => some (literalField text)
  | k + 1, _ :: s => parseFormatLoop text k s
  | 0, c :: s =>
    if c = 37 then
      match formatConversion s with
      | none => none
      | some (f, n) => (parseFormatLoop [] n s).map fun fs => literalField text ++ f :: fs
    else parseFormatLoop (text ++ [c]) 0 s

/-- `accesslog_parse_format`: `none` for an error. -/
def accesslogParseFormat (format : Bytes) : Option (List FormatField) :=
  parseFormatLoop [] 0 format

/-- The units by the names that a time field gives. -/
def timeUnits : List (Bytes × TimeUnit) :=
  [(str "sec", .sec), (str "msec", .msec), (str "usec", .usec), (str "nsec", .nsec),
    (str "msec_frac", .msecFrac), (str "usec_frac", .usecFrac), (str "nsec_frac", .nsecFrac)]

/-- The options of a `%t` field. -/
def timestampOpt (s : Bytes) : Option FormatOpt :=
  if s = [] then some .zero
  else
    let timeBegin := (str "begin:").isPrefixOf s
    let ptr :=
      if timeBegin then s.drop 6 else if (str "end:").isPrefixOf s then s.drop 4 else s
    match timeUnits.find? fun u => u.1 = ptr with
    | some u => some ⟨timeBegin, some u.2, false⟩
    | none => if strchr ptr 37 = none then none else some ⟨timeBegin, none, false⟩

/-- The options of a `%T` field. -/
def timeUsedOpt (s : Bytes) : Option FormatOpt :=
  if s = [] ∨ s = str "s" ∨ s = str "sec" then some ⟨false, some .sec, false⟩
  else if s = str "ms" ∨ s = str "msec" then some ⟨false, some .msec, false⟩
  else if s = str "us" ∨ s = str "usec" then some ⟨false, some .usec, false⟩
  else if s = str "ns" ∨ s = str "nsec" then some ⟨false, some .nsec, false⟩
  else none

/-- The options of a `%p` field. -/
def serverPortOpt (s : Bytes) : Option FormatOpt :=
  if s = [] ∨ s = str "canonical" ∨ s = str "local" then some .zero
  else if s = str "remote" then some ⟨false, none, true⟩
  else none

/-- What `log_access_open` makes of a field: `none` for an error. -/
def openField : FormatField → Option FormatField
  | .format .timestamp s _ => (timestampOpt s.string).map (.format .timestamp s)
  | .format .timeUsedUs s _ => some (.format .timeUsedUs s ⟨false, some .usec, false⟩)
  | .format .timeUsed s _ => (timeUsedOpt s.string).map (.format .timeUsed s)
  | .format .cookie s opt =>
    if bufferStringIsEmpty s then some (.string s) else some (.format .cookie s opt)
  | .format .serverPort s _ => (serverPortOpt s.string).map (.format .serverPort s)
  | f => some f

/-- A field whose text `log_access_write` takes from the cache of the timestamp. -/
def cachesTimestamp : FormatField → Bool
  | .format .timestamp _ opt => opt.timeUnit = none ∨ opt.timeUnit = some .sec
  | _ => false

/-- The fields that `log_access_open` accepts for a format. -/
def logAccessOpen (format : Bytes) : Option (List FormatField) :=
  match accesslogParseFormat format with
  | none => none
  | some fields =>
    match fields.mapM openField with
    | none => none
    | some fields => if (fields.filter cachesTimestamp).length ≤ 1 then some fields else none

end Lighttpd
