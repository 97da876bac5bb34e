import NodeJS.Buffer.Text

/-! `_debugger.js`: the reader and writer of the V8 debugger protocol. -/
namespace NodeJS.Debugger
open JSString (slice)

/-! ### Text -/

/-- `s.indexOf(pattern)`, if it is found. -/
def indexOf (pattern : JSString) : JSString → Option ℕ
  | [] => if pattern = [] then some 0 else none
  | c :: s => if pattern.isPrefixOf (c :: s) then some 0 else (indexOf pattern s).map (· + 1)

/-- `s.split('\r\n')`, where `line` is what is read of the first line so far. -/
def splitLines (line : JSString) : JSString → List JSString
  | [] => [line]
  | [c] => [line ++ [c]]
  | c :: d :: s =>
    if c = 0x0d ∧ d = 0x0a then line :: splitLines [] s else splitLines (line ++ [c]) (d :: s)

/-- What stands before the first match of `/: +/`, and what stands after it. -/
def cutColon : JSString → Option (JSString × JSString)
  | 0x3a :: 0x20 :: s => some ([], s.dropWhile (· = 0x20))
  | c :: s => (cutColon s).map fun r => (c :: r.1, r.2)
  | [] => none

/-- The first two parts of `line.split(/: +/)`. -/
def splitField (line : JSString) : JSString × Option JSString :=
  match cutColon line with
  | none => (line, none)
  | some (field, rest) =>
    match cutColon rest with
    | none => (field, some rest)
    | some (value, _) => (field, some value)

def digitValue (c : UInt16) : Option ℕ :=
  if 0x30 ≤ c ∧ c ≤ 0x39 then some (c.toNat - 0x30) else none

def readDigits (s : JSString) : Option ℕ :=
  if s = [] then none
  else (s.mapM digitValue).map fun ds => Nat.ofDigits 10 ds.reverse

/-- `+s`, where `none` is `NaN`: blanks around decimal digits with a sign are skipped. A numeral of
another form is taken for `NaN`. -/
def toNumber : Option JSString → Option ℤ
  | none => none
  | some s =>
    let blank (c : UInt16) : Bool := c = 0x20 || c = 0x09 || c = 0x0a || c = 0x0d
    match ((s.dropWhile blank).reverse.dropWhile blank).reverse with
    | [] => some 0
    | 0x2d :: s => (readDigits s).map fun n => -(n : ℤ)
    | 0x2b :: s => (readDigits s).map Int.ofNat
    | s => (readDigits s).map Int.ofNat

/-! ### The protocol -/

/-- JSON values: `JSON.stringify`, `JSON.parse` (which may throw), `{}`, and a request with its
`type` and `seq` set. -/
structure Json (α : Type) where
  stringify : α → JSString
  parse : JSString → Option α
  empty : α
  stamp : ℕ → α → α

/-- `JSON.parse` inverts `JSON.stringify`, and takes no empty text. -/
structure Json.Lawful {α : Type} (json : Json α) : Prop where
  parse_stringify : ∀ v, json.parse (json.stringify v) = some v
  parse_nil : json.parse [] = none

/-- `res` as `onResponse` gets it. Of two headers with the same name the last one counts. -/
structure Response (α : Type) where
  raw : JSString
  headers : List (JSString × Option JSString)
  body : α

inductive State
  | headers
  | body
  deriving DecidableEq

/-- A `Protocol`, with the fields of its `res` that are not read from a body. -/
structure Protocol where
  raw : JSString
  headers : List (JSString × Option JSString)
  state : State
  contentLength : Option ℤ
  bodyStartIndex : ℕ
  reqSeq : ℕ

inductive Exc
  | syntaxError
  | rangeError

def getHeader (headers : List (JSString × Option JSString)) (field : JSString) : Option JSString :=
  (headers.findRev? (·.1 = field)).bind (·.2)

namespace Protocol

/-- The case of `execute` for the headers. -/
def readHeaders (p : Protocol) : Protocol :=
  match indexOf (CRLF ++ CRLF) p.raw with
  | none => p
  | some endHeaderIndex =>
    let lines := splitLines [] (slice p.raw 0 endHeaderIndex)
    let headers := p.headers ++ lines.map splitField
    { p with
      headers := headers
      contentLength := toNumber (getHeader headers (js "Content-Length"))
      bodyStartIndex := endHeaderIndex + 4
      state := .body }

def complete (p : Protocol) : Bool :=
  p.state = .body &&
    match p.contentLength with
    | none => false
    | some n => n ≤ (p.raw.length : ℤ) - p.bodyStartIndex

def bodyEnd (p : Protocol) : ℤ := p.bodyStartIndex + p.contentLength.getD 0

/-- What `_newRes` sets. -/
def renew (p : Protocol) (raw : JSString) : Protocol :=
  { p with raw := raw, headers := [], state := .headers, reqSeq := 1 }

/-- `new Protocol()`: the `execute` in it finds nothing to read. -/
def new : Protocol where
  raw := []
  headers := []
  state := .headers
  contentLength := none
  bodyStartIndex := 0
  reqSeq := 1

end Protocol

/-- What a call of `execute` leaves: the responses it passed to `onResponse`, the protocol, and an
exception. -/
structure Outcome (α : Type) where
  responses : List (Response α)
  protocol : Protocol
  exc : Option Exc

section
variable {α : Type} (json : Json α)

/-- `execute`, on a call stack that has room for so many calls. -/
def execute : ℕ → Protocol → JSString → Outcome α
  | 0, p, _ => ⟨[], p, some .rangeError⟩
  | stack + 1, p, d =>
    let p := { p with raw := p.raw ++ d }
    let p := match p.state with
      | .headers => p.readHeaders
      | .body => p
    if p.complete then
      let text := slice p.raw p.bodyStartIndex p.bodyEnd
      match if text = [] then some json.empty else json.parse text with
      | none => ⟨[], p, some .syntaxError⟩
      | some body =>
        let later := execute stack (p.renew (slice p.raw p.bodyEnd p.raw.length)) []
        ⟨⟨p.raw, p.headers, body⟩ :: later.responses, later.protocol, later.exc⟩
    else ⟨[], p, none⟩

/-- `execute` of one chunk after the other, up to an exception. -/
def feed (stack : ℕ) : Protocol → List JSString → Outcome α
  | p, [] => ⟨[], p, none⟩
  | p, d :: chunks =>
    let first := execute json stack p d
    match first.exc with
    | some e => ⟨first.responses, first.protocol, some e⟩
    | none =>
      let later := feed stack first.protocol chunks
      ⟨first.responses ++ later.responses, later.protocol, later.exc⟩

def frame (v : α) : JSString :=
  js "Content-Length: " ++ numeral 10 (json.stringify v).length ++ CRLF ++ CRLF ++
    json.stringify v

/-- `serialize`: the request as it is then, its text, and the protocol. -/
def serialize (p : Protocol) (req : α) : α × JSString × Protocol :=
  let req := json.stamp p.reqSeq req
  (req, frame json req, { p with reqSeq := p.reqSeq + 1 })

def serializeAll : Protocol → List α → List α × JSString
  | _, [] => ([], [])
  | p, req :: reqs =>
    let (req, text, p) := serialize json p req
    let (later, rest) := serializeAll p reqs
    (req :: later, text ++ rest)

end

end NodeJS.Debugger
