import Lighttpd.RequestHost

/-!
# Parsing the header lines of a request

The header loop of `http_request_parse` reads one byte at a time and is either in a key or
in a value (`is_key`). At the end of a line `endOfHeaderLine` stores the header, or appends
a continuation line to the header that was named last. A request that is not accepted ends
in an error, which is the connection with its status set.
-/

namespace Lighttpd

open CString

/-! ## The header array -/

/-- The elements of `con->request.headers`: keys and values in the order of insertion. -/
abbrev Headers := List (Bytes × Buffer)

/-- `array_get_element_klen`: the value stored under a key. -/
def arrayGetElement (headers : Headers) (key : Bytes) : Option Buffer :=
  (headers.find? fun e => CaseEq e.1 key).map Prod.snd

/-- Replaces the value stored under a key, if there is one. -/
def arrayModify (headers : Headers) (key : Bytes) (f : Buffer → Buffer) : Headers :=
  match headers with
  | [] => []
  | e :: es => if CaseEq e.1 key then (e.1, f e.2) :: es else e :: arrayModify es key f

/-- `data_string_insert_dup` on the values. -/
def dataStringInsertDup (old : Buffer) (value : Bytes) : Buffer :=
  match old with
  | none => some value
  | some v => some (v ++ str ", " ++ value)

/-- `array_insert_unique`. -/
def arrayInsertUnique (headers : Headers) (key value : Bytes) : Headers :=
  match arrayGetElement headers key with
  | some _ => arrayModify headers key fun old => dataStringInsertDup old value
  | none => headers ++ [(key, some value)]

theorem arrayGetElement_cons (e : Bytes × Buffer) (es : Headers) (key : Bytes) :
    arrayGetElement (e :: es) key = if CaseEq e.1 key then some e.2 else arrayGetElement es key := by
  unfold arrayGetElement
  rw [List.find?_cons]
  split_ifs with h <;> simp [h]

/-- A changed value is seen under every spelling of its key, and under no other key. -/
theorem arrayGetElement_arrayModify (f : Buffer → Buffer) (key name : Bytes) :
    ∀ headers : Headers, arrayGetElement (arrayModify headers key f) name =
      if CaseEq key name then (arrayGetElement headers name).map f
      else arrayGetElement headers name
  | [] => by simp [arrayModify, arrayGetElement]
  | e :: es => by
    rw [arrayModify]
    by_cases hk : CaseEq e.1 key
    · rw [if_pos hk, arrayGetElement_cons, arrayGetElement_cons]
      have hn : CaseEq e.1 name ↔ CaseEq key name := ⟨hk.symm.trans, hk.trans⟩
      by_cases h : CaseEq key name
      · rw [if_pos (hn.mpr h), if_pos h, if_pos (hn.mpr h)]
        rfl
      · rw [if_neg (hn.not.mpr h), if_neg h, if_neg (hn.not.mpr h)]
    · rw [if_neg hk, arrayGetElement_cons, arrayGetElement_cons,
        arrayGetElement_arrayModify f key name es]
      by_cases hn : CaseEq e.1 name
      · have h : ¬ CaseEq key name := fun h => hk (hn.trans h.symm)
        rw [if_pos hn, if_neg h, if_pos hn]
      · rw [if_neg hn, if_neg hn]

theorem arrayGetElement_append_of_none {headers : Headers} {key name : Bytes} {value : Buffer}
    (h : arrayGetElement headers key = none) :
    arrayGetElement (headers ++ [(key, value)]) name =
      if CaseEq key name then some value else arrayGetElement headers name := by
  induction headers with
  | nil => simp [arrayGetElement_cons]
  | cons e es ih =>
    rw [arrayGetElement_cons] at h
    split_ifs at h with hk
    rw [List.cons_append, arrayGetElement_cons, arrayGetElement_cons, ih h]
    by_cases hn : CaseEq e.1 name
    · have h : ¬ CaseEq key name := fun h => hk (hn.trans h.symm)
      rw [if_pos hn, if_neg h, if_pos hn]
    · rw [if_neg hn, if_neg hn]

/-- An inserted value is a new element, or joins the value that is there. -/
theorem arrayGetElement_arrayInsertUnique (headers : Headers) (key value name : Bytes) :
    arrayGetElement (arrayInsertUnique headers key value) name =
      if CaseEq key name then
        some (((arrayGetElement headers name).map
          fun old => dataStringInsertDup old value).getD (some value))
      else arrayGetElement headers name := by
  have hcongr : CaseEq key name → arrayGetElement headers key = arrayGetElement headers name :=
    fun h => by
      have hkey : ∀ e : Bytes × Buffer, decide (CaseEq e.1 key) = decide (CaseEq e.1 name) :=
        fun e => decide_eq_decide.mpr ⟨fun h' => h'.trans h, fun h' => h'.trans h.symm⟩
      simp only [arrayGetElement, hkey]
  unfold arrayInsertUnique
  cases hk : arrayGetElement headers key with
  | some old =>
    rw [arrayGetElement_arrayModify]
    split_ifs with h
    · rw [← hcongr h, hk]
      rfl
    · rfl
  | none =>
    rw [arrayGetElement_append_of_none hk]
    split_ifs with h
    · rw [← hcongr h, hk]
      rfl
    · rfl

/-! ## The connection -/

/-- `http_method_t`. -/
inductive HttpMethod
  | unset | get | head | post | put | delete | connect | options | trace | acl | baselineControl
  | bind | checkin | checkout | copy | label | link | lock | merge | mkactivity | mkcalendar | mkcol
  | mkredirectref | mkworkspace | move | orderpatch | patch | propfind | proppatch | rebind | report
  | search | unbind | uncheckout | unlink | unlock | update | updateredirectref | versionControl
  deriving DecidableEq, Repr

/-- `http_version_t`. -/
inductive HttpVersion
  | unset
  | http10
  | http11
  deriving DecidableEq, Repr

/-- What `http_request_parse` reads and writes of a connection. The pointers into header
values are flags: the value is the one stored under the header's name. -/
structure RequestCon where
  httpMethod : HttpMethod
  httpVersion : HttpVersion
  uri : Buffer
  origUri : Buffer
  headers : Headers
  httpHost : Bool
  httpContentType : Bool
  httpIfModifiedSince : Bool
  httpIfNoneMatch : Bool
  httpRange : Bool
  contentLength : ℤ
  headerLen : ℕ
  httpStatus : ℕ
  keepAlive : Bool
  responseKeepAlive : Bool
  deriving DecidableEq, Repr

/-- The buffer that `http_host` points to. -/
def RequestCon.httpHostValue (con : RequestCon) : Buffer :=
  ((arrayGetElement con.headers (str "Host")).getD none)

/-- Ends the request with a status, without keep-alive. -/
def RequestCon.reject (con : RequestCon) (status : ℕ) : RequestCon :=
  { con with httpStatus := status, keepAlive := false }

/-- The same for a path that also clears `response.keep_alive`. -/
def RequestCon.rejectBoth (con : RequestCon) (status : ℕ) : RequestCon :=
  { con with httpStatus := status, keepAlive := false, responseKeepAlive := false }

/-- `http_request_missing_CR_before_LF`. -/
def httpRequestMissingCRBeforeLF (con : RequestCon) : RequestCon := con.rejectBoth 400

/-- `enum { HTTP_CONNECTION_UNSET, .. } keep_alive_set`. -/
inductive KeepAliveSet
  | unset
  | keepAlive
  | close
  deriving DecidableEq, Repr

/-- The variables of `http_request_parse` that live over header lines; `key` is the key that
a continuation line refers to. -/
structure ParseState where
  con : RequestCon
  keepAliveSet : KeepAliveSet
  conLengthSet : Bool
  reqlineHost : Bool
  key : Option Bytes
  deriving DecidableEq, Repr

/-! ## The end of a header line -/

/-- `http_request_split_value`: the tokens between commas. In a token, `tok` is what was read
up to the last byte that is no white space, and `ws` the white space behind it. -/
def httpRequestSplitValue (state : Option (Bytes × Bytes)) : Bytes → List Bytes
  | [] => match state with
    | none => []
    | some (tok, _) => [tok]
  | c :: s =>
    match state with
    | none =>
      if c = SP ∨ c = HT ∨ c = 44 then httpRequestSplitValue none s
      else if c = 0 then []
      else httpRequestSplitValue (some ([c], [])) s
    | some (tok, ws) =>
      if c = SP ∨ c = HT then httpRequestSplitValue (some (tok, ws ++ [c])) s
      else if c = 44 ∨ c = 0 then tok :: httpRequestSplitValue none s
      else httpRequestSplitValue (some (tok ++ ws ++ [c], [])) s

/-- The first token that is `keep-alive` or `close`. -/
def connectionToken (set : KeepAliveSet) : List Bytes → KeepAliveSet
  | [] => set
  | tok :: toks =>
    if CaseEq tok (str "keep-alive") then .keepAlive
    else if CaseEq tok (str "close") then .close
    else connectionToken set toks

/-- A header line, as it is read: a field with the white space around its value, or a
continuation line with its white space. -/
inductive HeaderLine
  | field (key raw : Bytes)
  | continuation (value : Bytes)
  deriving DecidableEq, Repr

/-- White space within a header line. -/
def isWs (c : UInt8) : Bool := c = SP || c = HT

/-- The value of a field without the white space around it. -/
def trimValue (raw : Bytes) : Bytes := ((raw.dropWhile isWs).reverse.dropWhile isWs).reverse

/-- The header is inserted and the request goes on, or ends with an error. -/
def ParseState.insert (st : ParseState) (key value : Bytes) : ParseState :=
  { st with con := { st.con with headers := arrayInsertUnique st.con.headers key value } }

/-- The header is inserted and the request ends. -/
def rejectHeader (st : ParseState) (key value : Bytes) : Except RequestCon ParseState :=
  .error ((st.insert key value).con.reject 400)

/-- The chain of comparisons with the known header names. -/
def storeHeader (st : ParseState) (key value : Bytes) : Except RequestCon ParseState :=
  if CaseEq key (str "Connection") then
    let st := { st with
      keepAliveSet := connectionToken st.keepAliveSet (httpRequestSplitValue none value) }
    .ok (st.insert key value)
  else if CaseEq key (str "Content-Length") then
    if st.conLengthSet then rejectHeader st key value
    else
      let r := strtol 10 value
      if (value.drop r.2).headD 0 = 0 ∧ r.1 ≥ 0 then
        let st := { st with conLengthSet := true, con := { st.con with contentLength := r.1 } }
        .ok (st.insert key value)
      else rejectHeader st key value
  else if CaseEq key (str "Content-Type") then
    if ¬ st.con.httpContentType then
      let st := { st with con := { st.con with httpContentType := true } }
      .ok (st.insert key value)
    else rejectHeader st key value
  else if CaseEq key (str "Host") then
    if st.reqlineHost then .ok st
    else if ¬ st.con.httpHost then
      let st := { st with con := { st.con with httpHost := true } }
      .ok (st.insert key value)
    else rejectHeader st key value
  else if CaseEq key (str "If-Modified-Since") then
    if ¬ st.con.httpIfModifiedSince then
      let st := { st with con := { st.con with httpIfModifiedSince := true } }
      .ok (st.insert key value)
    else
      let old : Buffer := (arrayGetElement st.con.headers (str "If-Modified-Since")).getD none
      if strcaseeq old.string value then .ok st else rejectHeader st key value
  else if CaseEq key (str "If-None-Match") then
    if ¬ st.con.httpIfNoneMatch then
      let st := { st with con := { st.con with httpIfNoneMatch := true } }
      .ok (st.insert key value)
    else .ok st
  else if CaseEq key (str "Range") then
    if ¬ st.con.httpRange then
      let isBytes := strncaseeq value (str "bytes=") ∧ (strchr (value.drop 6) 45).isSome
      let st := { st with con := { st.con with httpRange := isBytes } }
      .ok (st.insert key value)
    else rejectHeader st key value
  else .ok (st.insert key value)

/-- The end of a header line. Fields without a value are ignored, but for the key. -/
def endOfHeaderLine (st : ParseState) : HeaderLine → Except RequestCon ParseState
  | .continuation value =>
    match st.key with
    | none => .error (st.con.rejectBoth 400)
    | some key =>
      if key = [] then .error (st.con.rejectBoth 400)
      else
        .ok { st with con := { st.con with
          headers := arrayModify st.con.headers key fun old => some (old.string ++ value) } }
  | .field key raw =>
    let st := { st with key := some key }
    let value := trimValue raw
    if value = [] then .ok st else storeHeader st key value

/-- The separators that a key must not have. -/
def isSeparator (c : UInt8) : Bool := (str "()<>@,;\\\"/[]?=\x7b\x7d").contains c

/-- Where the loop is: in the key, in white space behind the key, or in a value; `acc` is
what was read since `first` or since `value`. -/
inductive HeaderMode
  | key (acc : Bytes)
  | wsAfterKey (key : Bytes)
  | value (key : Option Bytes) (acc : Bytes)
  deriving DecidableEq, Repr

/-- The line that ends in a value: without a key it is a continuation line. -/
def headerLine (key : Option Bytes) (acc : Bytes) : HeaderLine :=
  match key with
  | some key => .field key acc
  | none => .continuation acc

/-- The loop over the header: the state at its end and the bytes behind the header. -/
def headerLoop (strict : Bool) (st : ParseState) :
    HeaderMode → Bytes → Except RequestCon (ParseState × Bytes)
  | .key _, [] => .error (st.con.rejectBoth 400)
  | .key acc, c :: s =>
    if c = 58 then headerLoop strict st (.value (some acc) []) s
    else if isSeparator c then .error (st.con.rejectBoth 400)
    else if isWs c then
      if acc = [] then headerLoop strict st (.value none [c]) s
      else headerLoop strict st (.wsAfterKey acc) s
    else if c = CR then
      match s with
      | [] => .error (st.con.rejectBoth 400)
      | c' :: s' =>
        if c' = LF ∧ acc = [] then .ok (st, s') else .error (st.con.rejectBoth 400)
    else if c = LF ∧ strict then .error (httpRequestMissingCRBeforeLF st.con)
    else if c = LF ∧ acc = [] then .ok (st, s)
    else if (if strict then c < 32 ∨ 127 ≤ c else c = 0) then .error (st.con.rejectBoth 400)
    else headerLoop strict st (.key (acc ++ [c])) s
  | .wsAfterKey _, [] => .error (st.con.rejectBoth 400)
  | .wsAfterKey key, c :: s =>
    if isWs c then headerLoop strict st (.wsAfterKey key) s
    else if c = 58 then headerLoop strict st (.value (some key) []) s
    else .error (st.con.rejectBoth 400)
  | .value _ _, [] => .error (st.con.reject 400)
  | .value key acc, c :: s =>
    if c = CR then
      match s with
      | [] => .error (st.con.rejectBoth 400)
      | c' :: s' =>
        if c' = LF then
          match endOfHeaderLine st (headerLine key acc) with
          | .ok st' => headerLoop strict st' (.key []) s'
          | .error con => .error con
        else .error (st.con.rejectBoth 400)
    else if c = LF then
      if strict then .error (httpRequestMissingCRBeforeLF st.con)
      else
        match endOfHeaderLine st (headerLine key acc) with
        | .ok st' => headerLoop strict st' (.key []) s
        | .error con => .error con
    else if isWs c then headerLoop strict st (.value key (acc ++ [c])) s
    else if (if strict then c < 32 else c = 0) then .error (st.con.reject 400)
    else headerLoop strict st (.value key (acc ++ [c])) s

end Lighttpd
