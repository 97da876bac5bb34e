import NodeJS.Http.Header
import NodeJS.Net.Socket

/-! `http.js`: the methods of `OutgoingMessage` and `ServerResponse`, over any connection that
can be written to. -/
namespace NodeJS.Http

/-- What a message needs of `this.connection`. -/
class Connection (σ : Type) where
  writable : σ → Bool
  write : σ → Chunk → EncArg → Except Net.Exc Bool × σ

inductive Exc
  | setAfterSent
  | removeAfterSent
  | renderAfterSent
  | noConnection
  | socket (e : Net.Exc)

/-- The texts of the exceptions that are errors of the message. -/
def Exc.message : Exc → Option String
  | .setAfterSent => some "Can't set headers after they are sent."
  | .removeAfterSent => some "Can't remove headers after they are sent."
  | .renderAfterSent => some "Can't render headers after they are sent to the client."
  | .noConnection => none
  | .socket _ => none

/-- A message and the connection it would write to. -/
structure Endpoint (σ : Type) where
  msg : Outgoing
  sock : σ

abbrev M (σ : Type) := EStateM Exc (Endpoint σ)

variable {σ : Type} [Connection σ]

/-- The state a method leaves, whether it returns or throws. -/
def after {α : Type} (x : M σ α) (s : Endpoint σ) : Endpoint σ :=
  match x s with
  | .ok _ s => s
  | .error _ s => s

def getMsg : M σ Outgoing := fun s => .ok s.msg s

def modifyMsg (f : Outgoing → Outgoing) : M σ Unit := fun s => .ok () { s with msg := f s.msg }

/-- `this.connection.writable` -/
def writable : M σ Bool := fun s => .ok (Connection.writable s.sock) s

/-- `this.connection.write(chunk, encoding)` -/
def connectionWrite (chunk : Chunk) (encoding : EncArg) : M σ Bool := fun s =>
  match Connection.write s.sock chunk encoding with
  | (.ok r, sock) => .ok r { s with sock := sock }
  | (.error e, sock) => .error (.socket e) { s with sock := sock }

/-- `_buffer`. A Buffer becomes a string when something is added to it. -/
def buffer (output : List (Chunk × EncArg)) (data : Chunk) (encoding : EncArg) :
    List (Chunk × EncArg) :=
  if data.length = 0 then output else
  match data, output.getLast? with
  | .str s, some (.str lastData, lastEncoding) =>
    if (encoding.isSome ∧ lastEncoding = encoding) ∨ encoding = none then
      output.dropLast ++ [(.str (lastData ++ s), lastEncoding)]
    else output ++ [(data, encoding)]
  | .str s, some (.buffer lastData, lastEncoding) =>
    if encoding.isSome ∧ lastEncoding = encoding then
      output.dropLast ++ [(.str (utf8Slice lastData ++ s), lastEncoding)]
    else output ++ [(data, encoding)]
  | _, _ => output ++ [(data, encoding)]

def bufferData (data : Chunk) (encoding : EncArg) : M σ Unit :=
  modifyMsg fun m => { m with output := buffer m.output data encoding }

/-- The part of `_writeRaw` for a message that owns its connection; the list is what is left of
`output`. -/
def writeThrough (data : Chunk) (encoding : EncArg) : List (Chunk × EncArg) → M σ Bool
  | [] => connectionWrite data encoding
  | (c, e) :: output => do
    if !(← writable) then
      bufferData data encoding
      return false
    modifyMsg fun m => { m with output := output }
    let _ ← connectionWrite c e
    writeThrough data encoding output

def writeRaw (data : Chunk) (encoding : EncArg) : M σ Bool := do
  let m ← getMsg
  if m.attached && (← writable) then
    writeThrough data encoding m.output
  else
    bufferData data encoding
    return false

/-- `this._header` in a string. -/
def Outgoing.headerText (m : Outgoing) : JSString := m.header.getD (js "undefined")

def send (data : Chunk) (encoding : EncArg) : M σ Bool := do
  let m ← getMsg
  if m.headerSent then writeRaw data encoding
  else
    match data with
    | .str s =>
      modifyMsg fun m => { m with headerSent := true }
      writeRaw (.str (m.headerText ++ s)) encoding
    | .buffer b =>
      modifyMsg fun m => { m with
        output := (.str m.headerText, some (encName .ascii)) :: m.output
        headerSent := true }
      writeRaw (.buffer b) encoding

/-- `_storeHeader` -/
def sendHeader (firstLine : JSString) (lines : List Line) : M σ Unit := do
  let m ← getMsg
  let (m, sentExpect) := storeHeader m firstLine lines
  modifyMsg fun _ => m
  if sentExpect then
    let _ ← send (.str []) none

/-! ### Headers -/

/-- `object[key] = value` in an object given by its entries. An assignment to `__proto__` makes
no entry. -/
def setKey {β : Type} (l : List (JSString × β)) (key : JSString) (value : β) :
    List (JSString × β) :=
  if key = js "__proto__" then l
  else if l.any (·.1 = key) then l.map fun e => if e.1 = key then (key, value) else e
  else l ++ [(key, value)]

def setHeader (name : JSString) (value : Value) : M σ Unit := do
  let m ← getMsg
  if m.header.isSome then throw .setAfterSent
  modifyMsg fun m =>
    { m with headers := some (setKey (m.headers.getD []) (toLowerCase name) (name, value)) }

def removeHeader (name : JSString) : M σ Unit := do
  let m ← getMsg
  if m.header.isSome then throw .removeAfterSent
  modifyMsg fun m =>
    { m with headers := m.headers.map fun l => l.filter (·.1 ≠ toLowerCase name) }

def renderHeaders : M σ Headers := do
  let m ← getMsg
  if m.header.isSome then throw .renderAfterSent
  return (m.headers.getD []).map fun e => e.2

/-- The last argument of `writeHead`. -/
inductive HeadersArg
  | object (headers : Headers)
  | array (headers : Headers)

def HeadersArg.headers : HeadersArg → Headers
  | .object headers => headers
  | .array headers => headers

def inheritedText (field : JSString) : JSString :=
  if field = js "__proto__" then js "[object Object]"
  else
    js "function " ++ (if field = js "constructor" then js "Object" else field) ++
      js "() { [native code] }"

/-- `headers[field]`, if `field in headers`. -/
def Headers.property (headers : Headers) (field : JSString) : Option Value :=
  match headers.find? (·.1 = field) with
  | some h => some h.2
  | none => if inherited field then some (.one (inheritedText field)) else none

/-- The headers of `writeHead` together with those set before. An array gets an entry for each
of its fields that is found among those set before; the others are not sent. -/
def mergeHeaders (headers : Headers) : HeadersArg → Headers
  | .array obj => obj ++ obj.filterMap fun e => (headers.property e.1).map fun v => (e.1, v)
  | .object obj => obj.foldl (fun hs e => if e.1 = [] then hs else setKey hs e.1 e.2) headers

def statusCodes : List (ℕ × String) :=
  [(100, "Continue"), (101, "Switching Protocols"), (102, "Processing"), (200, "OK"),
    (201, "Created"), (202, "Accepted"), (203, "Non-Authoritative Information"),
    (204, "No Content"), (205, "Reset Content"), (206, "Partial Content"), (207, "Multi-Status"),
    (300, "Multiple Choices"), (301, "Moved Permanently"), (302, "Moved Temporarily"),
    (303, "See Other"), (304, "Not Modified"), (305, "Use Proxy"), (307, "Temporary Redirect"),
    (400, "Bad Request"), (401, "Unauthorized"), (402, "Payment Required"), (403, "Forbidden"),
    (404, "Not Found"), (405, "Method Not Allowed"), (406, "Not Acceptable"),
    (407, "Proxy Authentication Required"), (408, "Request Time-out"), (409, "Conflict"),
    (410, "Gone"), (411, "Length Required"), (412, "Precondition Failed"),
    (413, "Request Entity Too Large"), (414, "Request-URI Too Large"),
    (415, "Unsupported Media Type"), (416, "Requested Range Not Satisfiable"),
    (417, "Expectation Failed"), (418, "I'm a teapot"), (422, "Unprocessable Entity"),
    (423, "Locked"), (424, "Failed Dependency"), (425, "Unordered Collection"),
    (426, "Upgrade Required"), (500, "Internal Server Error"), (501, "Not Implemented"),
    (502, "Bad Gateway"), (503, "Service Unavailable"), (504, "Gateway Time-out"),
    (505, "HTTP Version not supported"), (506, "Variant Also Negotiates"),
    (507, "Insufficient Storage"), (509, "Bandwidth Limit Exceeded"), (510, "Not Extended")]

def statusLine (statusCode : ℕ) (reasonPhrase : Option JSString) : JSString :=
  js "HTTP/1.1 " ++ numeral 10 statusCode ++ js " " ++
    reasonPhrase.getD (js ((statusCodes.lookup statusCode).getD "unknown")) ++ CRLF

def bodiless (statusCode : ℕ) : Bool :=
  statusCode = 204 || statusCode = 304 || (100 ≤ statusCode && statusCode ≤ 199)

def writeHead (statusCode : ℕ) (reasonPhrase : Option JSString) (obj : Option HeadersArg) :
    M σ Unit := do
  modifyMsg fun m => { m with statusCode := statusCode }
  let m ← getMsg
  let headers ← match obj with
    | some obj =>
      if m.headers.isSome then (mergeHeaders · obj) <$> renderHeaders else pure obj.headers
    | none => if m.headers.isSome then renderHeaders else pure []
  modifyMsg fun m => { m with
    hasBody := m.hasBody && !bodiless statusCode
    shouldKeepAlive := m.shouldKeepAlive && !(m.expectContinue && !m.sent100) }
  sendHeader (statusLine statusCode reasonPhrase) headers.lines

/-- `_implicitHeader` of a `ServerResponse`, called where there is no header yet. -/
def implicitHeader : M σ Unit := do
  let m ← getMsg
  if m.header.isNone then writeHead m.statusCode none none

def writeContinue : M σ Unit := do
  let _ ← writeRaw (.str (js "HTTP/1.1 100 Continue" ++ CRLF ++ CRLF)) (some (encName .ascii))
  modifyMsg fun m => { m with sent100 := true }

/-! ### The body -/

/-- `n.toString(16)` -/
def hex (n : ℤ) : JSString :=
  if n < 0 then js "-" ++ numeral 16 n.natAbs else numeral 16 n.natAbs

def write (chunk : Chunk) (encoding : EncArg) : M σ Bool := do
  implicitHeader
  let m ← getMsg
  if !m.hasBody then return true
  if chunk.length = 0 then return false
  if m.chunkedEncoding then
    match chunk with
    | .str s =>
      let len := byteLength encoding.encoding s
      send (.str (hex len ++ CRLF ++ s ++ CRLF)) encoding
    | .buffer b =>
      let _ ← send (.str (hex b.length ++ CRLF)) none
      let _ ← send (.buffer b) none
      send (.str CRLF) none
  else send chunk encoding

def addTrailers (headers : List Line) : M σ Unit :=
  modifyMsg fun m => { m with trailer := headers.flatMap renderLine }

/-- Whether `end` sends everything in one write. -/
def hotPath (m : Outgoing) (data : Option Chunk) (connectionWritable : Bool) : Bool :=
  m.headerSent = false &&
    (match data with
      | some (.str s) => s.length > 0
      | _ => false) &&
    m.output.isEmpty && m.attached && connectionWritable

def hotText (m : Outgoing) (data : JSString) (encoding : EncArg) : JSString :=
  if m.chunkedEncoding then
    m.headerText ++ hex (byteLength encoding.encoding data) ++ CRLF ++ data ++ js "\r\n0\r\n" ++
      m.trailer ++ CRLF
  else m.headerText ++ data

def endSend : M σ Bool := do
  let m ← getMsg
  if m.chunkedEncoding then send (.str (js "0\r\n" ++ m.trailer ++ CRLF)) none
  else send (.str []) none

/-- The part of `end` that sends, for a message with a header. -/
def endBody (data : Option Chunk) (encoding : EncArg) : M σ Bool := do
  let m ← getMsg
  match data with
  | some (.str s) =>
    if hotPath m data (← writable) then
      let ret ← connectionWrite (.str (hotText m s encoding)) encoding
      modifyMsg fun m => { m with headerSent := true }
      return ret
    else if s.length > 0 then
      let _ ← write (.str s) encoding
      endSend
    else endSend
  | some (.buffer b) =>
    let _ ← write (.buffer b) encoding
    endSend
  | none => endSend

/-- `end`. The second result says that `'finish'` was emitted. -/
def «end» (data : Option Chunk) (encoding : EncArg) : M σ (Bool × Bool) := do
  let m ← getMsg
  if m.finished then return (false, false)
  else
    implicitHeader
    let m ← getMsg
    let ret ← endBody (if m.hasBody then data else none) encoding
    modifyMsg fun m => { m with finished := true }
    let m ← getMsg
    if m.output.isEmpty then
      if m.attached then return (ret, true) else throw .noConnection
    else return (ret, false)

inductive Flushed
  | blocked
  | finish
  | drain
  | idle

/-- The loop of `_flush`, over what is left of `output`. -/
def flushOutput : Bool → List (Chunk × EncArg) → M σ Flushed
  | ret, [] => do
    let m ← getMsg
    if m.finished then return .finish
    else if ret then return .drain
    else return .idle
  | _, (c, e) :: output => do
    if !(← writable) then return .blocked
    modifyMsg fun m => { m with output := output }
    let ret ← connectionWrite c e
    flushOutput ret output

def flush : M σ Flushed := do
  let m ← getMsg
  if !m.attached then return .idle
  flushOutput false m.output

/-- `assignSocket`, to a socket without a message. -/
def assignSocket : M σ Flushed := do
  modifyMsg fun m => { m with attached := true }
  flush

def detachSocket (m : Outgoing) : Outgoing := { m with attached := false }

def ServerResponse.new (head http11 : Bool) : Outgoing :=
  { Outgoing.new with
    hasBody := !head
    useChunkedEncodingByDefault := http11
    shouldKeepAlive := http11 }

/-- `new ClientRequest(options)` before its headers are set. -/
def ClientRequest.start (method : JSString) : Outgoing :=
  { Outgoing.new with
    shouldKeepAlive := false
    useChunkedEncodingByDefault := method ≠ js "GET" ∧ method ≠ js "HEAD"
    last := true }

/-! ### Requests and responses -/

/-- A `ServerResponse`, or a `ClientRequest` with the first line it sends. -/
inductive Kind
  | response
  | request (firstLine : JSString)

/-- `_implicitHeader`, called where there is no header yet. -/
def Kind.implicitHeader : Kind → M σ Unit
  | .response => Http.implicitHeader
  | .request firstLine => do
    let m ← getMsg
    if m.header.isNone then
      let headers ← renderHeaders
      sendHeader firstLine headers.lines

/-- `write`: it finds the header that `_implicitHeader` has stored. -/
def Kind.write (kind : Kind) (chunk : Chunk) (encoding : EncArg) : M σ Bool := do
  kind.implicitHeader
  Http.write chunk encoding

def Kind.end (kind : Kind) (data : Option Chunk) (encoding : EncArg) : M σ (Bool × Bool) := do
  let m ← getMsg
  if m.finished then return (false, false)
  else
    kind.implicitHeader
    Http.end data encoding

end NodeJS.Http
