import NodeJS.Buffer.Text
import Mathlib.Data.List.DropRight

/-! `url.parse` and `url.format` of lib/url.js. -/
namespace NodeJS.Url

abbrev slash : UInt16 := 0x2F
abbrev atSign : UInt16 := 0x40
abbrev colon : UInt16 := 0x3A
abbrev dot : UInt16 := 0x2E
abbrev hashMark : UInt16 := 0x23
abbrev questionMark : UInt16 := 0x3F
abbrev percentSign : UInt16 := 0x25
abbrev apostrophe : UInt16 := 0x27

/-! ### Tables -/

def delims : JSString := js "<>\"` \r\n\t"

def unwise : JSString := js "\x7b\x7d|\\^~[]`" ++ delims

def autoEscape : JSString := [apostrophe]

def nonHostChars : JSString := js "%/?;#" ++ unwise ++ autoEscape

def nonAuthChars : JSString := js "/@?#" ++ delims

def hostnameMaxLen : ℕ := 255

def unsafeProtocol : List JSString := [js "javascript", js "javascript:"]

def hostlessProtocol : List JSString := [js "javascript", js "javascript:"]

def slashedProtocol : List JSString :=
  [js "http", js "https", js "ftp", js "gopher", js "file",
    js "http:", js "https:", js "ftp:", js "gopher:", js "file:"]

/-- `table[proto]`, where `proto` may be `null`. -/
def has (table : List JSString) (proto : Option JSString) : Bool := proto.any table.contains

/-! ### Patterns -/

def isAlnum (c : UInt16) : Bool :=
  (0x30 ≤ c && c ≤ 0x39) || (0x41 ≤ c && c ≤ 0x5A) || (0x61 ≤ c && c ≤ 0x7A)

def isDigit (c : UInt16) : Bool := 0x30 ≤ c && c ≤ 0x39

/-- `[a-z0-9A-Z_-]` -/
def isNameChar (c : UInt16) : Bool := isAlnum c || c == 0x5F || c == 0x2D

/-- `/^([a-z0-9]+:)/i` -/
def protocolPattern (rest : JSString) : Option JSString :=
  let name := rest.takeWhile isAlnum
  if name ≠ [] ∧ (rest.drop name.length).head? = some colon then some (name ++ [colon]) else none

/-- `/^\/\/[^@\/]+@[^@\/]+/` -/
def userAtHost (rest : JSString) : Bool :=
  let user := (rest.drop 2).takeWhile fun c => c != atSign && c != slash
  rest.take 2 == [slash, slash] && !user.isEmpty &&
    match rest.drop (2 + user.length) with
    | c :: d :: _ => c == atSign && d != atSign && d != slash
    | _ => false

/-- `/:[0-9]+$/` -/
def portPattern (host : JSString) : Option JSString :=
  let digits := host.rtakeWhile isDigit
  if digits ≠ [] ∧ (host.take (host.length - digits.length)).getLast? = some colon then
    some (colon :: digits)
  else none

/-- `/^[a-zA-Z0-9][a-z0-9A-Z_-]{0,62}$/` -/
def hostnamePartPattern : JSString → Bool
  | [] => false
  | c :: part => isAlnum c && part.length ≤ 62 && part.all isNameChar

/-- `/^([a-zA-Z0-9][a-z0-9A-Z_-]{0,62})(.*)$/` -/
def hostnamePartStart : JSString → Option (JSString × JSString)
  | [] => none
  | c :: part =>
    let bit := (part.takeWhile isNameChar).take 62
    let more := part.drop bit.length
    if isAlnum c && !more.any isLineTerminator then some (c :: bit, more) else none

/-! ### Escapes -/

def hexUnit (n : ℕ) : UInt16 := if n < 10 then 0x30 + n.toUInt16 else 0x41 + (n - 10).toUInt16

def percent (c : UInt16) : JSString :=
  [percentSign, hexUnit (c.toNat / 16 % 16), hexUnit (c.toNat % 16)]

/-- `unescapePredicate` -/
def isUnescaped (c : UInt16) : Bool := isAlnum c || (js "!'()*-._~").contains c

def isHighSurrogate (c : UInt16) : Bool := 0xD800 ≤ c && c ≤ 0xDBFF

def isLowSurrogate (c : UInt16) : Bool := 0xDC00 ≤ c && c ≤ 0xDFFF

def encodeOctets (octets : Bytes) : JSString := octets.flatMap fun b => percent b.toUInt16

def encodePair (c₁ c₂ : UInt16) : Bytes :=
  let u := (c₁ >>> 6 &&& 0xF) + 1
  let w := c₁ >>> 2 &&& 0xF
  let x := c₁ &&& 3
  let y := c₂ >>> 6 &&& 0xF
  let z := c₂ &&& 63
  [((u >>> 2) + 240).toUInt8, (((u &&& 3) <<< 4 ||| w) + 128).toUInt8,
    ((x <<< 4 ||| y) + 128).toUInt8, (z + 128).toUInt8]

/-- `encodeURIComponent`, which throws where a surrogate stands alone. -/
def encodeURIComponent : JSString → Option JSString
  | [] => some []
  | c :: s =>
    if isUnescaped c then (encodeURIComponent s).map (c :: ·)
    else if isLowSurrogate c then none
    else if !isHighSurrogate c then (encodeURIComponent s).map (encodeOctets (utf8Unit c) ++ ·)
    else match s with
      | [] => none
      | d :: s =>
        if !isLowSurrogate d then none
        else (encodeURIComponent s).map (encodeOctets (encodePair c d) ++ ·)

/-- `encodeURIComponent` of a single character that is no surrogate. -/
def encodeCharacter (c : UInt16) : JSString := (encodeURIComponent [c]).getD []

/-- Of a character of the ASCII range. -/
def escape (c : UInt16) : JSString :=
  if isAlnum c || (js "@*_+-./").contains c then [c] else percent c

/-- `s.split(c).join(esc)` -/
def replaceAll (c : UInt16) (esc s : JSString) : JSString :=
  s.flatMap fun d => if d = c then esc else [d]

/-! ### The host -/

/-- Whether a character of `nonAuthChars` leaves the part in front of `atSign` an auth. -/
def mayBeAuth (rest : JSString) (atSign : ℕ) (c : UInt16) : Bool :=
  match rest.idxOf? c with
  | some index => !decide (index < atSign)
  | none => true

/-- The part in front of the first `@`. -/
def pluckAuth (rest : JSString) : Option JSString × JSString :=
  match rest.idxOf? atSign with
  | none => (none, rest)
  | some atSign =>
    let hasAuth := nonAuthChars.all (mayBeAuth rest atSign)
    if hasAuth then (some (rest.take atSign), rest.drop (atSign + 1)) else (none, rest)

def firstNonHostRound (rest : JSString) (firstNonHost : Option ℕ) (c : UInt16) : Option ℕ :=
  match rest.idxOf? c, firstNonHost with
  | some index, some first => if index < first then some index else some first
  | some index, none => some index
  | none, first => first

def firstNonHost (rest : JSString) : Option ℕ := nonHostChars.foldl (firstNonHostRound rest) none

def cutHost (rest : JSString) : JSString × JSString :=
  match firstNonHost rest with
  | some first => (rest.take first, rest.drop first)
  | none => (rest, [])

def parseHost (host : JSString) : Option JSString × Option JSString :=
  match portPattern host with
  | some port =>
    let hostname := host.take (host.length - port.length)
    (some port.tail, if hostname = [] then none else some hostname)
  | none => (none, if host = [] then none else some host)

/-- The loop over `hostparts`: the parts before one that is not valid, that one, and those after. -/
def firstInvalid : List JSString → List JSString → Option (List JSString × JSString × List JSString)
  | _, [] => none
  | validParts, part :: notHost =>
    if part = [] ∨ hostnamePartPattern part then firstInvalid (validParts ++ [part]) notHost
    else some (validParts, part, notHost)

/-- `validate a little` -/
def validate (hostname rest : JSString) : JSString × JSString :=
  if hostname.length > hostnameMaxLen then ([], rest)
  else match firstInvalid [] (hostname.splitOn dot) with
    | none => (hostname, rest)
    | some (validParts, part, notHost) =>
      let (validParts, notHost) :=
        match hostnamePartStart part with
        | some (bit, more) => (validParts ++ [bit], more :: notHost)
        | none => (validParts, notHost)
      ([dot].intercalate validParts,
        if notHost ≠ [] then slash :: [dot].intercalate notHost ++ rest else rest)

/-- What is set where there is a hostname. -/
structure Host where
  auth : Option JSString
  host : JSString
  port : Option JSString
  hostname : JSString
  deriving DecidableEq

def truthy (value : Option JSString) : Option JSString := value.filter (· ≠ [])

def hostStage (rest : JSString) : Host × JSString :=
  let (auth, rest) := pluckAuth rest
  let (host, rest) := cutHost rest
  let (port, hostname) := parseHost host
  let (hostname, rest) := validate (hostname.getD []) rest
  let hostname := toLowerCase hostname
  let host := (truthy auth).elim [] (· ++ [atSign]) ++ hostname ++
    (truthy port).elim [] (colon :: ·)
  (⟨auth, host, port, hostname⟩, rest)

/-! ### What follows the host -/

/-- The loop over `autoEscape`. -/
def escapeRest (rest : JSString) : JSString :=
  autoEscape.foldl (fun rest ae =>
    let esc := encodeCharacter ae
    let esc := if esc = [ae] then escape ae else esc
    replaceAll ae esc rest) rest

def chopRound (rest : JSString) (chop : ℕ) (c : UInt16) : ℕ :=
  match rest.idxOf? c with
  | some index => min index chop
  | none => chop

def chop (rest : JSString) : JSString := rest.take (delims.foldl (chopRound rest) rest.length)

/-- What `querystring` does: its objects, `parse`, the empty object, `Object.keys` and
`stringify`. -/
structure QueryString where
  Obj : Type
  parse : JSString → Obj
  empty : Obj
  keys : Obj → List JSString
  stringify : Obj → JSString
  keys_empty : keys empty = []

section
variable (Q : QueryString)

/-- An object that `urlParse` returns. -/
structure Parsed where
  protocol : Option JSString
  slashes : Bool
  auth : Option JSString
  host : Option JSString
  port : Option JSString
  hostname : Option JSString
  hash : Option JSString
  search : Option JSString
  query : Option (JSString ⊕ Q.Obj)
  pathname : Option JSString
  href : JSString

structure Tail where
  hash : Option JSString
  search : Option JSString
  query : Option (JSString ⊕ Q.Obj)
  pathname : JSString

def cutHash (rest : JSString) : Option JSString × JSString :=
  match rest.idxOf? hashMark with
  | some hash => (some (rest.drop hash), rest.take hash)
  | none => (none, rest)

/-- `chop off from the tail first` -/
def tailStage (parseQueryString : Bool) (rest : JSString) : Tail Q :=
  let (hash, rest) := cutHash rest
  match rest.idxOf? questionMark with
  | some qm =>
    let query := rest.drop (qm + 1)
    ⟨hash, some (rest.drop qm),
      some (if parseQueryString then .inr (Q.parse query) else .inl query), rest.take qm⟩
  | none =>
    if parseQueryString then ⟨hash, some [], some (.inr Q.empty), rest⟩
    else ⟨hash, none, none, rest⟩

variable {Q}

/-- `auth`, and what stands before the hostname for it. -/
def formatAuth (auth : Option JSString) : JSString :=
  let auth := (truthy auth).map fun auth =>
    nonAuthChars.foldl (fun auth nAC => replaceAll nAC (encodeCharacter nAC) auth)
      (replaceAll atSign (js "%40") auth)
  auth.elim [] (· ++ [atSign])

def formatQuery (query : Option (JSString ⊕ Q.Obj)) : JSString :=
  match query with
  | some (.inr query) => if Q.keys query ≠ [] then Q.stringify query else []
  | _ => []

def startWith (c : UInt16) (s : JSString) : JSString :=
  if s ≠ [] ∧ s.head? ≠ some c then c :: s else s

def urlFormat (obj : Parsed Q) : JSString :=
  let protocol := obj.protocol.getD []
  let host := obj.host.or <| obj.hostname.map fun hostname =>
    formatAuth obj.auth ++ hostname ++ (truthy obj.port).elim [] (colon :: ·)
  let pathname := obj.pathname.getD []
  let query := formatQuery obj.query
  let search := (truthy obj.search).getD (if query ≠ [] then questionMark :: query else [])
  let hash := obj.hash.getD []
  let protocol :=
    if protocol ≠ [] ∧ protocol.getLast? ≠ some colon then protocol ++ [colon] else protocol
  let slashes := obj.slashes ||
    (decide (protocol = []) || has slashedProtocol (some protocol)) && host.isSome
  let pathname := if slashes then startWith slash pathname else pathname
  let host := (if slashes then [slash, slash] else []) ++ host.getD []
  protocol ++ host ++ pathname ++ startWith questionMark search ++ startWith hashMark hash

def assemble (proto : Option JSString) (slashes : Bool) (host : Option Host) (tail : Tail Q) :
    Parsed Q :=
  let hostname := host.map Host.hostname
  let pathname :=
    if tail.pathname ≠ [] then some tail.pathname
    else if has slashedProtocol proto && (truthy hostname).isSome then some [slash] else none
  let out : Parsed Q :=
    ⟨proto.map toLowerCase, slashes, host.bind Host.auth, host.map Host.host, host.bind Host.port,
      hostname, tail.hash, tail.search, tail.query, pathname, []⟩
  { out with href := urlFormat out }

variable (Q)

def urlParse (url : JSString) (parseQueryString slashesDenoteHost : Bool) : Parsed Q :=
  let rest := url.dropWhile delims.contains
  let proto := protocolPattern rest
  let lowerProto := proto.map toLowerCase
  let rest := rest.drop (proto.getD []).length
  let slashes := (slashesDenoteHost || proto.isSome || userAtHost rest) &&
    rest.take 2 == [slash, slash]
  let outSlashes := slashes && !has hostlessProtocol proto
  let rest := if outSlashes then rest.drop 2 else rest
  let hosted := !has hostlessProtocol proto &&
    (slashes || proto.isSome && !has slashedProtocol proto)
  let (host, rest) := if hosted then (some (hostStage rest).1, (hostStage rest).2) else (none, rest)
  let rest := if has unsafeProtocol lowerProto then rest else chop (escapeRest rest)
  assemble proto outSlashes host (tailStage Q parseQueryString rest)

end

end NodeJS.Url
