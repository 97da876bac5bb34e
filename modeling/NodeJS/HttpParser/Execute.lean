import NodeJS.Buffer.Text
import NodeJS.Lib.Marks
import Mathlib.Algebra.Ring.Int.Defs
import Mathlib.Algebra.Ring.Nat

/-! `http_parser.c`: the state machine of `http_parser_execute`. `strict` stands for
`HTTP_PARSER_STRICT`. -/
namespace NodeJS.HttpParser
open Lib.Marks (Act Machine Client Outcome)

/-! ### `struct http_parser` -/

inductive HttpParserType
  | request
  | response
  | both
  deriving DecidableEq

inductive Method
  | delete
  | get
  | head
  | post
  | put
  | connect
  | options
  | trace
  | copy
  | lock
  | mkcol
  | move
  | propfind
  | proppatch
  | unlock
  | report
  | mkactivity
  | checkout
  | merge
  | msearch
  | notify
  | subscribe
  | unsubscribe
  | patch
  deriving DecidableEq

def bytes (s : String) : Bytes := s.toList.map fun c => c.toNat.toUInt8

def methodStrings : Method → Bytes
  | .delete => bytes "DELETE"
  | .get => bytes "GET"
  | .head => bytes "HEAD"
  | .post => bytes "POST"
  | .put => bytes "PUT"
  | .connect => bytes "CONNECT"
  | .options => bytes "OPTIONS"
  | .trace => bytes "TRACE"
  | .copy => bytes "COPY"
  | .lock => bytes "LOCK"
  | .mkcol => bytes "MKCOL"
  | .move => bytes "MOVE"
  | .propfind => bytes "PROPFIND"
  | .proppatch => bytes "PROPPATCH"
  | .unlock => bytes "UNLOCK"
  | .report => bytes "REPORT"
  | .mkactivity => bytes "MKACTIVITY"
  | .checkout => bytes "CHECKOUT"
  | .merge => bytes "MERGE"
  | .msearch => bytes "M-SEARCH"
  | .notify => bytes "NOTIFY"
  | .subscribe => bytes "SUBSCRIBE"
  | .unsubscribe => bytes "UNSUBSCRIBE"
  | .patch => bytes "PATCH"

inductive State
  | dead
  | startReqOrRes
  | resOrRespH
  | startRes
  | resH
  | resHT
  | resHTT
  | resHTTP
  | resFirstHttpMajor
  | resHttpMajor
  | resFirstHttpMinor
  | resHttpMinor
  | resFirstStatusCode
  | resStatusCode
  | resStatus
  | resLineAlmostDone
  | startReq
  | reqMethod
  | reqSpacesBeforeUrl
  | reqSchema
  | reqSchemaSlash
  | reqSchemaSlashSlash
  | reqHost
  | reqPort
  | reqPath
  | reqQueryStringStart
  | reqQueryString
  | reqFragmentStart
  | reqFragment
  | reqHttpStart
  | reqHttpH
  | reqHttpHT
  | reqHttpHTT
  | reqHttpHTTP
  | reqFirstHttpMajor
  | reqHttpMajor
  | reqFirstHttpMinor
  | reqHttpMinor
  | reqLineAlmostDone
  | headerFieldStart
  | headerField
  | headerValueStart
  | headerValue
  | headerValueLws
  | headerAlmostDone
  | chunkSizeStart
  | chunkSize
  | chunkParameters
  | chunkSizeAlmostDone
  | headersAlmostDone
  | chunkData
  | chunkDataAlmostDone
  | chunkDataDone
  | bodyIdentity
  | bodyIdentityEof
  deriving DecidableEq

def State.parsingHeader : State → Bool
  | .chunkData | .chunkDataAlmostDone | .chunkDataDone | .bodyIdentity | .bodyIdentityEof => false
  | _ => true

inductive HeaderState
  | general
  | C
  | CO
  | CON
  | matchingConnection
  | matchingProxyConnection
  | matchingContentLength
  | matchingTransferEncoding
  | matchingUpgrade
  | connection
  | contentLength
  | transferEncoding
  | upgrade
  | matchingTransferEncodingChunked
  | matchingConnectionKeepAlive
  | matchingConnectionClose
  | transferEncodingChunked
  | connectionKeepAlive
  | connectionClose
  deriving DecidableEq

structure Flags where
  chunked : Bool
  connectionKeepAlive : Bool
  connectionClose : Bool
  trailing : Bool
  upgrade : Bool
  skipbody : Bool
  deriving DecidableEq

/-- `parser->flags = 0` -/
def Flags.none : Flags := ⟨false, false, false, false, false, false⟩

structure Message where
  type : HttpParserType
  flags : Flags
  contentLength : ℤ
  httpMajor : ℕ
  httpMinor : ℕ
  statusCode : ℕ
  method : Method
  upgrade : Bool
  deriving DecidableEq

/-- The parser. While a window is read, the last four are the local variables of that name. -/
structure Parser extends Message where
  state : State
  headerState : HeaderState
  index : ℕ
  nread : ℕ
  deriving DecidableEq

def Message.shouldKeepAlive (m : Message) : Bool :=
  if m.httpMajor > 0 ∧ m.httpMinor > 0 then !m.flags.connectionClose
  else m.flags.connectionKeepAlive

/-- `http_parser_init`; the fields that are not set keep what they had. -/
def Parser.init (q : Parser) (t : HttpParserType) : Parser :=
  { q with
    type := t
    state :=
      match t with
      | .request => .startReq
      | .response => .startRes
      | .both => .startReqOrRes
    nread := 0
    upgrade := false
    flags := .none
    method := .delete }

/-! ### Characters -/

def CR : UInt8 := 0x0d

def LF : UInt8 := 0x0a

def TOKEN (c : UInt8) : UInt8 :=
  if 0x41 ≤ c ∧ c ≤ 0x5a then c + 0x20
  else if c < 0x20 ∨ 0x7f ≤ c then 0
  else if c ∈ bytes "(),:;<=>?@[\\]\x7b" then 0
  else c

/-- `unhex`. The table has initializers for half of its entries; the others are 0. -/
def unhex (c : UInt8) : ℤ :=
  if 0x30 ≤ c ∧ c ≤ 0x39 then c.toNat - 0x30
  else if 0x41 ≤ c ∧ c ≤ 0x46 then c.toNat - 0x41 + 10
  else if 0x61 ≤ c ∧ c ≤ 0x66 then c.toNat - 0x61 + 10
  else if c < 0x80 then -1
  else 0

def normalUrlChar (c : UInt8) : Bool := 0x21 ≤ c ∧ c ≤ 0x7e ∧ c ≠ 0x23 ∧ c ≠ 0x3f

def LOWER (c : UInt8) : UInt8 := c ||| 0x20

def IS_ALPHA (c : UInt8) : Bool := 0x61 ≤ c ∧ c ≤ 0x7a

def IS_NUM (c : UInt8) : Bool := 0x30 ≤ c ∧ c ≤ 0x39

def IS_URL_CHAR (strict : Bool) (c : UInt8) : Bool :=
  normalUrlChar c || !strict && decide (0x80 ≤ c)

def IS_HOST_CHAR (strict : Bool) (c : UInt8) : Bool :=
  IS_ALPHA c || IS_NUM c || c == 0x2e || c == 0x2d || !strict && c == 0x5f

/-- `ch - '0'` -/
def digit (ch : UInt8) : ℕ := ch.toNat - 0x30

/-! ### Leaving the loop -/

/-- The data callbacks whose pieces are marked; `on_body` is the other one. -/
inductive Mark
  | headerField
  | headerValue
  | fragment
  | queryString
  | path
  | url
  deriving DecidableEq

inductive Notification
  | messageBegin (m : Message)
  | headersComplete (m : Message)
  | messageComplete (m : Message)

/-- How a call ends before its window does: `goto error`; `return p - data`, with the local
variables dropped; the same after `on_headers_complete`, with the state saved; something that the
language leaves undefined; a failed assertion. -/
inductive Stop
  | error (m : Message)
  | returned (m : Message)
  | refused (m : Message)
  | undefined
  | assertion

abbrev Step := Act Mark Notification Parser Stop

def error (q : Parser) : Step := .stop (.error q.toMessage)

def CALLBACK2 (n : Message → Notification) (q : Parser) (rest : Step) : Step :=
  .ask (n q.toMessage) fun r => if r ≠ 0 then .stop (.returned q.toMessage) else rest

/-- `CALLBACK(FOR)`, for one after the other. -/
def CALLBACK : List Mark → Parser → Step → Step
  | [], _, rest => rest
  | k :: ks, q, rest =>
    .hand k fun r => if r ≠ 0 then .stop (.returned q.toMessage) else CALLBACK ks q rest

def goto (q : Parser) (s : State) : Step := .next { q with state := s }

def STRICT_CHECK (strict : Bool) (cond : Prop) [Decidable cond] (q : Parser) (rest : Step) : Step :=
  if strict ∧ cond then error q else rest

def NEW_MESSAGE (strict : Bool) (q : Parser) : State :=
  if strict ∧ ¬ q.shouldKeepAlive then .dead
  else if q.type = .request then .startReq
  else .startRes

def messageComplete (strict : Bool) (q : Parser) : Step :=
  CALLBACK2 .messageComplete q (goto q (NEW_MESSAGE strict q))

/-! ### The request line -/

/-- `goto start_req_method_assign`: the method that a first letter stands for, to begin with. -/
def methodOf (ch : UInt8) : Option Method :=
  if ch = 0x43 then some .connect
  else if ch = 0x44 then some .delete
  else if ch = 0x47 then some .get
  else if ch = 0x48 then some .head
  else if ch = 0x4c then some .lock
  else if ch = 0x4d then some .mkcol
  else if ch = 0x4e then some .notify
  else if ch = 0x4f then some .options
  else if ch = 0x50 then some .post
  else if ch = 0x52 then some .report
  else if ch = 0x53 then some .subscribe
  else if ch = 0x54 then some .trace
  else if ch = 0x55 then some .unlock
  else none

def startReqMethodAssign (q : Parser) (ch : UInt8) : Step :=
  match methodOf ch with
  | none => error { q with method := .delete, index := 1 }
  | some m => .next { q with method := m, index := 1, state := .reqMethod }

/-- The method that a letter which does not fit the one at hand leads to; `none` is an error.
Among the methods that begin with `C` or `M` any letter will do. -/
def otherMethod (m : Method) (index : ℕ) (ch : UInt8) : Option Method :=
  match m with
  | .connect =>
    if index = 1 ∧ ch = 0x48 then some .checkout
    else if index = 2 ∧ ch = 0x50 then some .copy
    else some .connect
  | .mkcol =>
    if index = 1 ∧ ch = 0x4f then some .move
    else if index = 1 ∧ ch = 0x45 then some .merge
    else if index = 1 ∧ ch = 0x2d then some .msearch
    else if index = 2 ∧ ch = 0x41 then some .mkactivity
    else some .mkcol
  | .post =>
    if index = 1 ∧ ch = 0x52 then some .propfind
    else if index = 1 ∧ ch = 0x55 then some .put
    else if index = 1 ∧ ch = 0x41 then some .patch
    else none
  | .unlock => if index = 2 ∧ ch = 0x53 then some .unsubscribe else none
  | .propfind => if index = 4 ∧ ch = 0x50 then some .proppatch else none
  | _ => none

/-- `case s_req_method`. `matcher[index]` is a terminator at the end of the name; what follows it
is not part of the array. -/
def reqMethod (q : Parser) (ch : UInt8) : Step :=
  let matcher := methodStrings q.method
  if ch = 0 then error q
  else if matcher.length < q.index then .stop .undefined
  else if ch = 0x20 ∧ matcher.length = q.index then
    .next { q with state := .reqSpacesBeforeUrl, index := q.index + 1 }
  else if matcher[q.index]? = some ch then .next { q with index := q.index + 1 }
  else
    match otherMethod q.method q.index ch with
    | none => error q
    | some m => .next { q with method := m, index := q.index + 1 }

def reqSpacesBeforeUrl (q : Parser) (ch : UInt8) : Step :=
  if ch = 0x20 then .next q
  else if ch = 0x2f ∨ ch = 0x2a then .mark .url (.mark .path (goto q .reqPath))
  else if IS_ALPHA ch ∨ q.method = .connect ∧ IS_NUM ch then
    .mark .url (goto q (if q.method = .connect then .reqHost else .reqSchema))
  else error q

def reqSchema (q : Parser) (ch : UInt8) : Step :=
  if IS_ALPHA (LOWER ch) then .next q
  else if ch = 0x3a then goto q .reqSchemaSlash
  else error q

def endHost (q : Parser) (ch : UInt8) (other : Step) : Step :=
  if ch = 0x2f then .mark .path (goto q .reqPath)
  else if ch = 0x20 then CALLBACK [.url] q (goto q .reqHttpStart)
  else if ch = 0x3f then goto q .reqQueryStringStart
  else other

def reqHost (strict : Bool) (q : Parser) (ch : UInt8) : Step :=
  if IS_HOST_CHAR strict ch then .next q
  else if ch = 0x3a then goto q .reqPort
  else endHost q ch (error q)

def reqPort (q : Parser) (ch : UInt8) : Step :=
  if IS_NUM ch then .next q
  else endHost q ch (error q)

/-- What ends a URL of which these pieces are marked; a line without a version is HTTP/0.9. -/
def endUrl (ks : List Mark) (q : Parser) (ch : UInt8) (other : Step) : Step :=
  if ch = 0x20 then CALLBACK ks q (goto q .reqHttpStart)
  else if ch = CR then
    CALLBACK ks q (goto { q with httpMajor := 0, httpMinor := 9 } .reqLineAlmostDone)
  else if ch = LF then
    CALLBACK ks q (goto { q with httpMajor := 0, httpMinor := 9 } .headerFieldStart)
  else other

def reqPath (strict : Bool) (q : Parser) (ch : UInt8) : Step :=
  if IS_URL_CHAR strict ch then .next q
  else endUrl [.url, .path] q ch <|
    if ch = 0x3f then CALLBACK [.path] q (goto q .reqQueryStringStart)
    else if ch = 0x23 then CALLBACK [.path] q (goto q .reqFragmentStart)
    else error q

def reqQueryStringStart (strict : Bool) (q : Parser) (ch : UInt8) : Step :=
  if IS_URL_CHAR strict ch then .mark .queryString (goto q .reqQueryString)
  else endUrl [.url] q ch <|
    if ch = 0x3f then .next q
    else if ch = 0x23 then goto q .reqFragmentStart
    else error q

def reqQueryString (strict : Bool) (q : Parser) (ch : UInt8) : Step :=
  if IS_URL_CHAR strict ch then .next q
  else endUrl [.url, .queryString] q ch <|
    if ch = 0x3f then .next q
    else if ch = 0x23 then CALLBACK [.queryString] q (goto q .reqFragmentStart)
    else error q

def reqFragmentStart (strict : Bool) (q : Parser) (ch : UInt8) : Step :=
  if IS_URL_CHAR strict ch then .mark .fragment (goto q .reqFragment)
  else endUrl [.url] q ch <|
    if ch = 0x3f then .mark .fragment (goto q .reqFragment)
    else if ch = 0x23 then .next q
    else error q

def reqFragment (strict : Bool) (q : Parser) (ch : UInt8) : Step :=
  if IS_URL_CHAR strict ch then .next q
  else endUrl [.url, .fragment] q ch <|
    if ch = 0x3f ∨ ch = 0x23 then .next q
    else error q

/-! ### Versions and status codes -/

def firstHttpMajor (q : Parser) (ch : UInt8) (next : State) : Step :=
  if ch < 0x31 ∨ 0x39 < ch then error q
  else goto { q with httpMajor := digit ch } next

def httpMajor (q : Parser) (ch : UInt8) (next : State) : Step :=
  if ch = 0x2e then goto q next
  else if !IS_NUM ch then error q
  else
    let q := { q with httpMajor := q.httpMajor * 10 + digit ch }
    if q.httpMajor > 999 then error q else .next q

def firstHttpMinor (q : Parser) (ch : UInt8) (next : State) : Step :=
  if !IS_NUM ch then error q
  else goto { q with httpMinor := digit ch } next

def httpMinor (q : Parser) (ch : UInt8) : Step :=
  if !IS_NUM ch then error q
  else
    let q := { q with httpMinor := q.httpMinor * 10 + digit ch }
    if q.httpMinor > 999 then error q else .next q

def firstStatusCode (q : Parser) (ch : UInt8) : Step :=
  if !IS_NUM ch then
    if ch = 0x20 then .next q else error q
  else goto { q with statusCode := digit ch } .resStatusCode

def resStatusCode (q : Parser) (ch : UInt8) : Step :=
  if !IS_NUM ch then
    if ch = 0x20 then goto q .resStatus
    else if ch = CR then goto q .resLineAlmostDone
    else if ch = LF then goto q .headerFieldStart
    else error q
  else
    let q := { q with statusCode := q.statusCode * 10 + digit ch }
    if q.statusCode > 999 then error q else .next q

/-! ### Headers -/

/-- One more character of a name or a value that may turn out to be this one. -/
def matching (name : Bytes) (done : HeaderState) (q : Parser) (c : UInt8) : Parser :=
  let index := q.index + 1
  let headerState :=
    if index > name.length ∨ c ≠ name.getD index 0 then .general
    else if index = name.length - 1 then done
    else q.headerState
  { q with index, headerState }

def CONNECTION : Bytes := bytes "connection"

def PROXY_CONNECTION : Bytes := bytes "proxy-connection"

def CONTENT_LENGTH : Bytes := bytes "content-length"

def TRANSFER_ENCODING : Bytes := bytes "transfer-encoding"

def UPGRADE : Bytes := bytes "upgrade"

def CHUNKED : Bytes := bytes "chunked"

def KEEP_ALIVE : Bytes := bytes "keep-alive"

def CLOSE : Bytes := bytes "close"

/-- What the first character of a field may be the beginning of. -/
def fieldStart (c : UInt8) : HeaderState :=
  if c = 0x63 then .C
  else if c = 0x70 then .matchingProxyConnection
  else if c = 0x74 then .matchingTransferEncoding
  else if c = 0x75 then .matchingUpgrade
  else .general

/-- The switch over `header_state` in a field; `none` where it has no case. -/
def fieldChar (q : Parser) (c ch : UInt8) : Option Parser :=
  let further (headerState : HeaderState) : Option Parser :=
    some { q with index := q.index + 1, headerState }
  match q.headerState with
  | .general => some q
  | .C => further (if c = 0x6f then .CO else .general)
  | .CO => further (if c = 0x6e then .CON else .general)
  | .CON =>
    further (if c = 0x6e then .matchingConnection
      else if c = 0x74 then .matchingContentLength
      else .general)
  | .matchingConnection => some (matching CONNECTION .connection q c)
  | .matchingProxyConnection => some (matching PROXY_CONNECTION .connection q c)
  | .matchingContentLength => some (matching CONTENT_LENGTH .contentLength q c)
  | .matchingTransferEncoding => some (matching TRANSFER_ENCODING .transferEncoding q c)
  | .matchingUpgrade => some (matching UPGRADE .upgrade q c)
  | .connection | .contentLength | .transferEncoding | .upgrade =>
    some (if ch ≠ 0x20 then { q with headerState := .general } else q)
  | _ => none

/-- An overflow of `int64_t` is undefined. -/
def addDigit (q : Parser) (base : ℤ) (d : ℤ) (rest : Parser → Step) : Step :=
  let contentLength := q.contentLength * base + d
  if contentLength < -2 ^ 63 ∨ 2 ^ 63 ≤ contentLength then .stop .undefined
  else rest { q with contentLength }

/-- The switch over `header_state` in a value. -/
def valueChar (q : Parser) (ch : UInt8) : Step :=
  let c := LOWER ch
  match q.headerState with
  | .general => .next q
  | .connection | .transferEncoding => .stop .assertion
  | .contentLength =>
    if ch = 0x20 then .next q
    else if !IS_NUM ch then error q
    else addDigit q 10 (digit ch) .next
  | .matchingTransferEncodingChunked => .next (matching CHUNKED .transferEncodingChunked q c)
  | .matchingConnectionKeepAlive => .next (matching KEEP_ALIVE .connectionKeepAlive q c)
  | .matchingConnectionClose => .next (matching CLOSE .connectionClose q c)
  | .transferEncodingChunked | .connectionKeepAlive | .connectionClose =>
    .next (if ch ≠ 0x20 then { q with headerState := .general } else q)
  | _ => .next { q with state := .headerValue, headerState := .general }

/-- The switch over `header_state` at the first character of a value. -/
def valueStart (q : Parser) (ch : UInt8) : Step :=
  let c := LOWER ch
  match q.headerState with
  | .upgrade => .next { q with flags.upgrade := true, headerState := .general }
  | .transferEncoding =>
    .next { q with headerState :=
      if c = 0x63 then .matchingTransferEncodingChunked else .general }
  | .contentLength =>
    if !IS_NUM ch then error q
    else .next { q with contentLength := digit ch }
  | .connection =>
    .next { q with headerState :=
      if c = 0x6b then .matchingConnectionKeepAlive
      else if c = 0x63 then .matchingConnectionClose
      else .general }
  | _ => .next { q with headerState := .general }

/-- What follows `on_headers_complete`. -/
def headersComplete (strict : Bool) (q : Parser) : Step :=
  if q.upgrade then CALLBACK2 .messageComplete q (.stop (.returned q.toMessage))
  else if q.flags.skipbody then messageComplete strict q
  else if q.flags.chunked then goto q .chunkSizeStart
  else if q.contentLength = 0 then messageComplete strict q
  else if q.contentLength > 0 then goto q .bodyIdentity
  else if q.type = .request ∨ q.shouldKeepAlive then messageComplete strict q
  else goto q .bodyIdentityEof

def headersAlmostDone (strict : Bool) (q : Parser) (ch : UInt8) : Step :=
  STRICT_CHECK strict (ch ≠ LF) q <|
  if q.flags.trailing then messageComplete strict q
  else
    let upgrade := q.upgrade || q.flags.upgrade || q.method == Method.connect
    let q := { q with nread := 0, upgrade }
    .ask (.headersComplete q.toMessage) fun r =>
      if r = 0 then headersComplete strict q
      else if r = 1 then headersComplete strict { q with flags.skipbody := true }
      else .stop (.refused q.toMessage)

def headerFieldStart (strict : Bool) (q : Parser) (ch : UInt8) : Step :=
  if ch = CR then goto q .headersAlmostDone
  else if ch = LF then headersAlmostDone strict { q with state := .headersAlmostDone } ch
  else
    let c := TOKEN ch
    if c = 0 then error q
    else
      .mark .headerField <|
        .next { q with index := 0, state := .headerField, headerState := fieldStart c }

def headerField (q : Parser) (ch : UInt8) : Step :=
  let c := TOKEN ch
  if c ≠ 0 then
    match fieldChar q c ch with
    | none => .stop .assertion
    | some q => .next q
  else if ch = 0x3a then CALLBACK [.headerField] q (goto q .headerValueStart)
  else if ch = CR then
    CALLBACK [.headerField] { q with state := .headerAlmostDone } (goto q .headerAlmostDone)
  else if ch = LF then CALLBACK [.headerField] q (goto q .headerFieldStart)
  else error q

def headerValueStart (q : Parser) (ch : UInt8) : Step :=
  if ch = 0x20 ∨ ch = 0x09 then .next q
  else
    .mark .headerValue <|
      let q := { q with state := .headerValue, index := 0 }
      if ch = CR then
        CALLBACK [.headerValue] q
          (.next { q with headerState := .general, state := .headerAlmostDone })
      else if ch = LF then CALLBACK [.headerValue] q (goto q .headerFieldStart)
      else valueStart q ch

def headerAlmostDone (strict : Bool) (q : Parser) (ch : UInt8) : Step :=
  STRICT_CHECK strict (ch ≠ LF) q <|
  let q := { q with state := .headerValueLws }
  match q.headerState with
  | .connectionKeepAlive => .next { q with flags.connectionKeepAlive := true }
  | .connectionClose => .next { q with flags.connectionClose := true }
  | .transferEncodingChunked => .next { q with flags.chunked := true }
  | _ => .next q

def headerValue (strict : Bool) (q : Parser) (ch : UInt8) : Step :=
  if ch = CR then CALLBACK [.headerValue] q (goto q .headerAlmostDone)
  else if ch = LF then CALLBACK [.headerValue] q (headerAlmostDone strict q ch)
  else valueChar q ch

def headerValueLws (strict : Bool) (q : Parser) (ch : UInt8) : Step :=
  if ch = 0x20 ∨ ch = 0x09 then goto q .headerValueStart
  else headerFieldStart strict { q with state := .headerFieldStart } ch

/-! ### Bodies -/

/-- `assert(parser->flags & F_CHUNKED)` -/
def assertChunked (q : Parser) (rest : Step) : Step :=
  if q.flags.chunked then rest else .stop .assertion

/-- `left` is `pe - p`. -/
def bodyIdentity (strict : Bool) (q : Parser) (left : ℕ) : Step :=
  let toRead := min (left : ℤ) q.contentLength
  if toRead > 0 then
    .take toRead.toNat <|
      let q := { q with contentLength := q.contentLength - toRead }
      if q.contentLength = 0 then messageComplete strict q else .next q
  else .next q

def chunkSizeStart (q : Parser) (ch : UInt8) : Step :=
  if q.nread ≠ 1 then .stop .assertion
  else assertChunked q <|
    if unhex ch = -1 then error q
    else goto { q with contentLength := unhex ch } .chunkSize

def chunkSize (q : Parser) (ch : UInt8) : Step :=
  assertChunked q <|
    if ch = CR then goto q .chunkSizeAlmostDone
    else if unhex ch = -1 then
      if ch = 0x3b ∨ ch = 0x20 then goto q .chunkParameters else error q
    else addDigit q 16 (unhex ch) .next

def chunkSizeAlmostDone (strict : Bool) (q : Parser) (ch : UInt8) : Step :=
  assertChunked q <| STRICT_CHECK strict (ch ≠ LF) q <|
    let q := { q with nread := 0 }
    if q.contentLength = 0 then goto { q with flags.trailing := true } .headerFieldStart
    else goto q .chunkData

def chunkData (q : Parser) (left : ℕ) : Step :=
  assertChunked q <|
    let toRead := min (left : ℤ) q.contentLength
    let state := if toRead = q.contentLength then .chunkDataAlmostDone else q.state
    let rest : Step := .next { q with state, contentLength := q.contentLength - toRead }
    if toRead > 0 then .take toRead.toNat rest else rest

/-! ### The loop -/

def messageBegin (q : Parser) (rest : Parser → Step) : Step :=
  let q := { q with flags := .none, contentLength := -1 }
  CALLBACK2 .messageBegin q (rest q)

def switch (strict : Bool) (q : Parser) (ch : UInt8) (left : ℕ) : State → Step
  | .dead => error q
  | .startReqOrRes =>
    if ch = CR ∨ ch = LF then .next q
    else messageBegin q fun q =>
      if ch = 0x48 then goto q .resOrRespH
      else startReqMethodAssign { q with type := .request } ch
  | .resOrRespH =>
    if ch = 0x54 then goto { q with type := .response } .resHT
    else if ch ≠ 0x45 then error q
    else goto { q with type := .request, method := .head, index := 2 } .reqMethod
  | .startRes =>
    messageBegin q fun q =>
      if ch = 0x48 then goto q .resH
      else if ch = CR ∨ ch = LF then .next q
      else error q
  | .resH => STRICT_CHECK strict (ch ≠ 0x54) q (goto q .resHT)
  | .resHT => STRICT_CHECK strict (ch ≠ 0x54) q (goto q .resHTT)
  | .resHTT => STRICT_CHECK strict (ch ≠ 0x50) q (goto q .resHTTP)
  | .resHTTP => STRICT_CHECK strict (ch ≠ 0x2f) q (goto q .resFirstHttpMajor)
  | .resFirstHttpMajor => firstHttpMajor q ch .resHttpMajor
  | .resHttpMajor => httpMajor q ch .resFirstHttpMinor
  | .resFirstHttpMinor => firstHttpMinor q ch .resHttpMinor
  | .resHttpMinor => if ch = 0x20 then goto q .resFirstStatusCode else httpMinor q ch
  | .resFirstStatusCode => firstStatusCode q ch
  | .resStatusCode => resStatusCode q ch
  | .resStatus =>
    if ch = CR then goto q .resLineAlmostDone
    else if ch = LF then goto q .headerFieldStart
    else .next q
  | .resLineAlmostDone => STRICT_CHECK strict (ch ≠ LF) q (goto q .headerFieldStart)
  | .startReq =>
    if ch = CR ∨ ch = LF then .next q
    else messageBegin q fun q =>
      if !IS_ALPHA (LOWER ch) then error q else startReqMethodAssign q ch
  | .reqMethod => reqMethod q ch
  | .reqSpacesBeforeUrl => reqSpacesBeforeUrl q ch
  | .reqSchema => reqSchema q ch
  | .reqSchemaSlash => STRICT_CHECK strict (ch ≠ 0x2f) q (goto q .reqSchemaSlashSlash)
  | .reqSchemaSlashSlash => STRICT_CHECK strict (ch ≠ 0x2f) q (goto q .reqHost)
  | .reqHost => reqHost strict q ch
  | .reqPort => reqPort q ch
  | .reqPath => reqPath strict q ch
  | .reqQueryStringStart => reqQueryStringStart strict q ch
  | .reqQueryString => reqQueryString strict q ch
  | .reqFragmentStart => reqFragmentStart strict q ch
  | .reqFragment => reqFragment strict q ch
  | .reqHttpStart =>
    if ch = 0x48 then goto q .reqHttpH
    else if ch = 0x20 then .next q
    else error q
  | .reqHttpH => STRICT_CHECK strict (ch ≠ 0x54) q (goto q .reqHttpHT)
  | .reqHttpHT => STRICT_CHECK strict (ch ≠ 0x54) q (goto q .reqHttpHTT)
  | .reqHttpHTT => STRICT_CHECK strict (ch ≠ 0x50) q (goto q .reqHttpHTTP)
  | .reqHttpHTTP => STRICT_CHECK strict (ch ≠ 0x2f) q (goto q .reqFirstHttpMajor)
  | .reqFirstHttpMajor => firstHttpMajor q ch .reqHttpMajor
  | .reqHttpMajor => httpMajor q ch .reqFirstHttpMinor
  | .reqFirstHttpMinor => firstHttpMinor q ch .reqHttpMinor
  | .reqHttpMinor =>
    if ch = CR then goto q .reqLineAlmostDone
    else if ch = LF then goto q .headerFieldStart
    else httpMinor q ch
  | .reqLineAlmostDone => if ch ≠ LF then error q else goto q .headerFieldStart
  | .headerFieldStart => headerFieldStart strict q ch
  | .headerField => headerField q ch
  | .headerValueStart => headerValueStart q ch
  | .headerValue => headerValue strict q ch
  | .headerValueLws => headerValueLws strict q ch
  | .headerAlmostDone => headerAlmostDone strict q ch
  | .chunkSizeStart => chunkSizeStart q ch
  | .chunkSize => chunkSize q ch
  | .chunkParameters =>
    assertChunked q (if ch = CR then goto q .chunkSizeAlmostDone else .next q)
  | .chunkSizeAlmostDone => chunkSizeAlmostDone strict q ch
  | .headersAlmostDone => headersAlmostDone strict q ch
  | .chunkData => chunkData q left
  | .chunkDataAlmostDone =>
    assertChunked q (STRICT_CHECK strict (ch ≠ CR) q (goto q .chunkDataDone))
  | .chunkDataDone => assertChunked q (STRICT_CHECK strict (ch ≠ LF) q (goto q .chunkSizeStart))
  | .bodyIdentity => bodyIdentity strict q left
  | .bodyIdentityEof => .take left (.next q)

def HTTP_MAX_HEADER_SIZE : ℕ := 80 * 1024

def execByte (strict : Bool) (q : Parser) (ch : UInt8) (left : ℕ) : Step :=
  if q.state.parsingHeader then
    let q := { q with nread := q.nread + 1 }
    if q.nread > HTTP_MAX_HEADER_SIZE then error q else switch strict q ch left q.state
  else switch strict q ch left q.state

def State.marks : State → Finset Mark
  | .headerField => {.headerField}
  | .headerValue => {.headerValue}
  | .reqFragment => {.fragment, .url}
  | .reqQueryString => {.queryString, .url}
  | .reqPath => {.path, .url}
  | .reqSchema | .reqSchemaSlash | .reqSchemaSlashSlash | .reqPort | .reqQueryStringStart
  | .reqHost | .reqFragmentStart => {.url}
  | _ => ∅

def machine (strict : Bool) : Machine UInt8 Mark Notification Parser Stop where
  step := execByte strict
  active q := q.state.marks
  order := [.headerField, .headerValue, .fragment, .queryString, .path, .url]
  refused q := .returned q.toMessage

/-- `http_parser_settings`. A callback that is not set answers zero. -/
abbrev Settings (U : Type) := Client UInt8 Mark Notification U

/-- How a call ended. A caller sees the number of bytes, which is that of the window when all were
parsed, and also when a callback stopped the call at the end of the window. -/
inductive Ended
  | parsed
  | error
  | returned
  deriving DecidableEq

/-- The parser and the client after a call, and what it returns. -/
structure Result (U : Type) where
  parser : Parser
  nparsed : ℕ
  user : U
  ended : Ended

/-- `parser->state = state; ...`, in fields of eight and of 32 bits. -/
def Parser.save (q : Parser) : Parser :=
  { q with index := q.index % 2 ^ 8, nread := q.nread % 2 ^ 32 }

/-- The parser that a message was left in, with the variables that were saved before. -/
def Parser.leave (q : Parser) (m : Message) : Parser := { q with toMessage := m }

/-- What keeps a call from returning. -/
inductive Fault
  | undefined
  | assertion

variable {U : Type}

/-- What a call for a window from the parser `q` makes of the run of its loop. -/
def Result.of (q : Parser) (data : Bytes) : Outcome Parser Stop U → Except Fault (Result U)
  | .done q' u => .ok ⟨q'.save, data.length, u, .parsed⟩
  | .stopped (.error m) n u => .ok ⟨{ q.leave m with state := .dead }, n, u, .error⟩
  | .stopped (.returned m) n u => .ok ⟨q.leave m, n, u, .returned⟩
  | .stopped (.refused m) n u =>
    .ok ⟨{ q.leave m with state := .headersAlmostDone }, n, u, .returned⟩
  | .stopped .undefined _ _ => .error .undefined
  | .stopped .assertion _ _ => .error .assertion

/-- `http_parser_execute` at the end of the stream. It returns 1 for an error. -/
def executeEof (settings : Settings U) (q : Parser) (u : U) : Result U :=
  match q.state with
  | .bodyIdentityEof =>
    ⟨q, 0, (settings.ask (.messageComplete q.toMessage) u).2,
      if (settings.ask (.messageComplete q.toMessage) u).1 ≠ 0 then .returned else .parsed⟩
  | .dead | .startReqOrRes | .startRes | .startReq => ⟨q, 0, u, .parsed⟩
  | _ => ⟨q, 1, u, .error⟩

def execute (strict : Bool) (settings : Settings U) (q : Parser) (data : Bytes) (u : U) :
    Except Fault (Result U) :=
  if data = [] then .ok (executeEof settings q u)
  else Result.of q data ((machine strict).window settings data q u)

def Result.shift (n : ℕ) (r : Result U) : Result U := { r with nparsed := n + r.nparsed }

/-- A call for each segment, until there is one that fails or is stopped. The bytes parsed are
those of all calls. -/
def executeAll (strict : Bool) (settings : Settings U) :
    List Bytes → Parser → U → Except Fault (Result U)
  | [], q, u => .ok ⟨q, 0, u, .parsed⟩
  | data :: segments, q, u =>
    match execute strict settings q data u with
    | .error e => .error e
    | .ok r =>
      if r.ended = .parsed then
        (executeAll strict settings segments r.parser r.user).map (Result.shift data.length)
      else .ok r

end NodeJS.HttpParser
