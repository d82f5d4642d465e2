import Lighttpd.Accesslog

/-!
# Writing the access log

`log_access_write` field by field. `accesslog_append_escaped` copies blocks and writes the
other bytes as escapes; the digits of a fraction go backwards from the end of the log
buffer; the scan for a cookie holds a pointer into the header value and its NUL. A pointer
that leaves its buffer gives `none`.
-/

namespace Lighttpd

open CString

/-- A digit of an `\xHH` escape. -/
def escapeDigit (h : UInt8) : UInt8 := if h > 9 then h - 10 + 65 else h + 48

/-- The escape of a byte that is not copied. -/
def escapeByte (c : UInt8) : Bytes :=
  if c = 34 then [92, 34]
  else if c = 92 then [92, 92]
  else if c = 8 then [92, 98]
  else if c = 10 then [92, 110]
  else if c = 13 then [92, 114]
  else if c = 9 then [92, 116]
  else if c = 11 then [92, 118]
  else [92, 120, escapeDigit (c / 16), escapeDigit (c % 16)]

/-- A byte that is copied. -/
def logPlain (c : UInt8) : Bool := 32 ≤ c && c ≤ 126 && c ≠ 34 && c ≠ 92

/-- The loop of `accesslog_append_escaped`, with the block from `start` to `ptr`. -/
def appendEscapedLoop (dest block : Bytes) : Bytes → Bytes
  | [] => dest ++ block
  | c :: s =>
    if logPlain c then appendEscapedLoop dest (block ++ [c]) s
    else appendEscapedLoop (dest ++ block ++ escapeByte c) [] s

/-- `accesslog_append_escaped`. -/
def accesslogAppendEscaped (dest : Bytes) (s : Buffer) : Bytes :=
  if bufferStringIsEmpty s then dest else appendEscapedLoop dest [] s.string

/-- A blank in a header value. -/
def isCookieBlank (c : UInt8) : Bool := c = 32 || c = 9

/-- `while (*str == ' ' || *str == '\t') ++str`. -/
def skipCookieBlanks : Bytes → Option Bytes
  | [] => none
  | c :: s => if isCookieBlank c then skipCookieBlanks s else some (c :: s)

/-- `do { ++str } while (*str != ' ' && *str != '\t' && *str != '\0')`, after the first `++str`. -/
def skipCookieWord : Bytes → Option Bytes
  | [] => none
  | c :: s => if isCookieBlank c ∨ c = 0 then some (c :: s) else skipCookieWord s

/-- The bytes of a value without the blanks at its end; the first byte stays. -/
def cookieText : Bytes → Bytes
  | [] => []
  | c :: s => c :: (s.reverse.dropWhile isCookieBlank).reverse

/-- The scan for a cookie from `str` on, with the NUL at the end of the value: the text that
goes through `accesslog_append_escaped`. -/
def cookieScan (name : Bytes) : ℕ → Bytes → Option Bytes
  | 0, _ => none
  | n + 1, s =>
    match skipCookieBlanks s with
    | none => none
    | some s =>
      if name.isPrefixOf s ∧ (s.drop name.length).head? = some 61 then
        some (cookieText ((s.drop (name.length + 1)).takeWhile fun c => c ≠ 0 ∧ c ≠ 59))
      else
        match (skipCookieWord (s.drop 1)).bind skipCookieBlanks with
        | none => none
        | some s => if s.head? = some 59 then cookieScan name n (s.drop 1) else some []

/-! ## Fields -/

/-- What `log_access_write` reads of a connection. -/
structure LoggedCon where
  requestStart : ℤ
  requestStartHp : ℤ × ℕ
  dstAddrBuf : Bytes
  dstPort : ℕ
  environment : Headers
  requestHeaders : Headers
  responseHeaders : Headers
  requestLine : Buffer
  httpStatus : ℤ
  httpVersion : HttpVersion
  httpMethod : HttpMethod
  bytesWritten : ℤ
  bytesHeader : ℤ
  bytesRead : ℤ
  physicalPath : Buffer
  serverName : Buffer
  authority : Buffer
  query : Buffer
  pathRaw : Buffer
  srvToken : Bytes
  responseEnd : Bool
  keepAlive : Bool
  requestCount : ℕ

/-- The clocks, the time functions of the C library and the server's port. -/
structure LogEnv where
  curTs : ℤ
  realtime : ℤ × ℕ
  strftime : Bytes → ℤ → Bytes
  gmtoff : ℤ → ℤ
  port : ℕ

/-- The log buffer, the cached timestamp with its time, and the local variables. -/
structure LogState where
  logbuffer : Bytes
  tsStr : Bytes
  lastTs : ℤ
  newts : Bool
  ts : ℤ × ℕ
  deriving DecidableEq, Repr

variable (env : LogEnv) (con : LoggedCon)

/-- Appends to the log buffer. -/
def LogState.append (st : LogState) (text : Bytes) : LogState :=
  { st with logbuffer := st.logbuffer ++ text }

/-- `log_clock_gettime_realtime`, unless the clock was read before. -/
def LogState.readClock (st : LogState) : LogState :=
  if st.ts.1 = 0 then { st with ts := env.realtime } else st

/-- The time of a field with the flags `opt`, in seconds and nanoseconds. -/
def LogState.fieldTime (opt : FormatOpt) (st : LogState) : LogState × (ℤ × ℕ) :=
  if opt.timeBegin then (st, con.requestStartHp)
  else ((st.readClock env), (st.readClock env).ts)

/-- `for (ptr = end; ns > 0; ns /= 10) *--ptr = (ns % 10) + '0'`, with `ptr` at an offset. -/
def writeDigits (ns : ℕ) (b : Bytes) : ℕ → Option Bytes
  | 0 => if ns = 0 then some b else none
  | p + 1 =>
    if ns = 0 then some b
    else writeDigits (ns / 10) (b.set p (UInt8.ofNat (ns % 10) + 48)) p

/-- The width of a fraction. -/
def fractionWidth : TimeUnit → ℕ
  | .msecFrac => 3
  | .usecFrac => 6
  | _ => 9

/-- The nanoseconds in the unit of a fraction, rounded up. -/
def fractionCeil (unit : TimeUnit) (ns : ℕ) : ℕ :=
  match unit with
  | .msecFrac => (ns + 999999) / 1000000
  | .usecFrac => (ns + 999) / 1000
  | _ => ns

/-- The fraction of a second, behind what the log buffer holds. -/
def appendFraction (unit : TimeUnit) (ns : ℕ) (b : Bytes) : Option Bytes :=
  let b := b ++ List.replicate (fractionWidth unit) 48
  writeDigits (fractionCeil unit ns) b b.length

/-- The text of a timestamp. -/
def timestampText (s : Buffer) (t : ℤ) : Bytes :=
  if bufferStringIsEmpty s then
    let scd := (env.gmtoff t).natAbs
    let hrs := scd / 3600
    let min := scd % 3600 / 60
    env.strftime (str "[%d/%b/%Y:%H:%M:%S ") t ++ (if 0 ≤ env.gmtoff t then str "+" else str "-") ++
      (if hrs < 10 then str "0" else []) ++ itostr hrs ++
      (if min < 10 then str "0" else []) ++ itostr min ++ str "]"
  else env.strftime s.string t

/-- A `%t` field. -/
def logTimestamp (s : Buffer) (opt : FormatOpt) (st : LogState) : Option LogState :=
  match opt.timeUnit with
  | some .sec => some (st.append (offtostr (if opt.timeBegin then con.requestStart else env.curTs)))
  | some .msec =>
    let (st, t) := st.fieldTime env con opt
    some (st.append (offtostr (t.1 * 1000 + ((t.2 + 999999) / 1000000 : ℕ))))
  | some .usec =>
    let (st, t) := st.fieldTime env con opt
    some (st.append (offtostr (t.1 * 1000000 + ((t.2 + 999) / 1000 : ℕ))))
  | some .nsec =>
    let (st, t) := st.fieldTime env con opt
    some (st.append (offtostr (t.1 * 1000000000 + t.2)))
  | some unit =>
    let (st, t) := st.fieldTime env con opt
    (appendFraction unit t.2 st.logbuffer).map fun b => { st with logbuffer := b }
  | none =>
    if ¬ opt.timeBegin ∧ env.curTs = st.lastTs then some (st.append st.tsStr)
    else if opt.timeBegin then
      let text := timestampText env s con.requestStart
      some ({ st with tsStr := text }.append text)
    else
      let text := timestampText env s env.curTs
      some ({ st with lastTs := env.curTs, newts := true, tsStr := text }.append text)

/-- A `%T` or `%D` field. -/
def logTimeUsed (opt : FormatOpt) (st : LogState) : LogState :=
  if opt.timeUnit = some .sec then st.append (offtostr (env.curTs - con.requestStart))
  else
    let st := st.readClock env
    let tdiff := (st.ts.1 - con.requestStartHp.1) * 1000000000 +
      ((st.ts.2 : ℤ) - con.requestStartHp.2)
    st.append (offtostr (
      if tdiff ≤ 0 then -1
      else if opt.timeUnit = some .msec then (tdiff + 999999) / 1000000
      else if opt.timeUnit = some .usec then (tdiff + 999) / 1000
      else tdiff))

/-- A value, or `-` for an empty one. -/
def orDash (s : Buffer) : Bytes := if bufferStringIsEmpty s then str "-" else s.string

/-- An escaped value, or `-` if there is none. -/
def LogState.appendValue (st : LogState) (value : Option Buffer) : LogState :=
  match value with
  | some s => { st with logbuffer := accesslogAppendEscaped st.logbuffer s }
  | none => st.append (str "-")

/-- The colon before the port in `srv_token`. -/
def srvTokenColon : Option ℕ :=
  if con.srvToken.head? = some 91 then strstr con.srvToken (str "]:") else strchr con.srvToken 58

/-- A `%C` field. -/
def logCookie (s : Buffer) (st : LogState) : Option LogState :=
  match arrayGetElement con.requestHeaders (str "Cookie") with
  | none => some st
  | some value =>
    (cookieScan s.string (value.string.length + 1) (value.string ++ [0])).map fun v =>
      { st with logbuffer := accesslogAppendEscaped st.logbuffer (some v) }

/-- One field of `log_access_write`. -/
def logField (st : LogState) : FormatField → Option LogState
  | .string s => some (st.append s.string)
  | .format field s opt =>
    match field with
    | .timestamp => logTimestamp env con s opt st
    | .timeUsed | .timeUsedUs => some (logTimeUsed env con opt st)
    | .remoteAddr | .remoteHost => some (st.append con.dstAddrBuf)
    | .remoteIdent => some (st.append (str "-"))
    | .remoteUser =>
      some (st.appendValue ((arrayGetElement con.environment (str "REMOTE_USER")).filter
        fun v => ¬ bufferStringIsEmpty v))
    | .requestLine => some { st with
        logbuffer := accesslogAppendEscaped st.logbuffer con.requestLine }
    | .status => some (st.append (offtostr con.httpStatus))
    | .bytesOutNoHeader =>
      some (st.append (
        if 0 < con.bytesWritten then
          offtostr (if con.bytesWritten - con.bytesHeader ≤ 0 then 0
            else con.bytesWritten - con.bytesHeader)
        else str "-"))
    | .header => some (st.appendValue (arrayGetElement con.requestHeaders s.string))
    | .responseHeader => some (st.appendValue (arrayGetElement con.responseHeaders s.string))
    | .env | .note => some (st.appendValue (arrayGetElement con.environment s.string))
    | .filename => some (st.append (orDash con.physicalPath))
    | .bytesOut =>
      some (st.append (if 0 < con.bytesWritten then offtostr con.bytesWritten else str "-"))
    | .bytesIn => some (st.append (if 0 < con.bytesRead then offtostr con.bytesRead else str "-"))
    | .serverName => some (st.append (orDash con.serverName))
    | .httpHost =>
      some (st.appendValue (if bufferStringIsEmpty con.authority then none else some con.authority))
    | .requestProtocol =>
      some (st.append (if con.httpVersion = .http11 then str "HTTP/1.1" else str "HTTP/1.0"))
    | .requestMethod => some (st.append ((getHttpMethodName con.httpMethod).getD []))
    | .percent => some (st.append (str "%"))
    | .localAddr =>
      some (st.append (match srvTokenColon con with
        | some colon => con.srvToken.take colon
        | none => con.srvToken))
    | .serverPort =>
      some (st.append (
        if opt.portRemote then itostr con.dstPort
        else match srvTokenColon con with
          | some colon => con.srvToken.drop (colon + 1)
          | none => itostr env.port))
    | .queryString => some { st with logbuffer := accesslogAppendEscaped st.logbuffer con.query }
    | .url => some { st with logbuffer := accesslogAppendEscaped st.logbuffer con.pathRaw }
    | .connectionStatus =>
      some (st.append (if con.responseEnd then if con.keepAlive then str "+" else str "-"
        else str "X"))
    | .keepaliveCount =>
      some (st.append (if 1 < con.requestCount then itostr (con.requestCount - 1) else str "0"))
    | .cookie => logCookie con s st
    | .unset | .unsupported => some st

/-- The loop over the fields of the format. -/
def logFields (st : LogState) (fields : List FormatField) : Option LogState :=
  fields.foldlM (logField env con) st

/-- `BUFFER_MAX_REUSE_SIZE`. -/
def bufferMaxReuseSize : ℕ := 4 * 1024

/-- What `mod_accesslog` is set to for a request. -/
structure AccesslogConf where
  fields : List FormatField
  useSyslog : Bool
  logAccessFd : Option ℕ
  toPipe : Bool
  deriving DecidableEq, Repr

/-- The buffered log of a file, the syslog buffer, the cached timestamp, and what was
written to the file and to syslog. -/
structure Accesslog where
  logbuffer : Buffer
  tsStr : Bytes
  lastTs : ℤ
  written : Bytes
  syslog : List Bytes
  deriving DecidableEq, Repr

/-- `log_access_write`. -/
def logAccessWrite (conf : AccesslogConf) (log : Accesslog) : Option Accesslog :=
  if conf.useSyslog then
    (logFields env con ⟨[], log.tsStr, log.lastTs, false, (0, 0)⟩ conf.fields).map fun st =>
      { log with
        tsStr := st.tsStr, lastTs := st.lastTs
        syslog := if st.logbuffer = [] then log.syslog else log.syslog ++ [cstr st.logbuffer] }
  else if conf.logAccessFd = none then some log
  else
    (logFields env con ⟨log.logbuffer.string, log.tsStr, log.lastTs, false, (0, 0)⟩
      conf.fields).map fun st =>
        let b := st.logbuffer ++ [LF]
        if conf.toPipe ∨ st.newts ∨ bufferMaxReuseSize ≤ b.length then
          { log with
            logbuffer := none, tsStr := st.tsStr, lastTs := st.lastTs
            written := log.written ++ b }
        else { log with logbuffer := some b, tsStr := st.tsStr, lastTs := st.lastTs }

end Lighttpd
