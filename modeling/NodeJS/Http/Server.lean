import NodeJS.Http.Methods
import NodeJS.Net.Delivery

/-! `http.js`: `connectionListener`, which answers the requests of one connection in the order
in which they come in. -/
namespace NodeJS.Http

/-- What can be seen on a connection: the calls of `socket.write`, each by some response, and the
handlers of `'finish'`, each with `_last` and with `incoming` as it finds them. -/
inductive Event
  | wrote (k : ℕ) (chunk : Chunk) (encoding : EncArg)
  | finish (k : ℕ) (last : Bool) (incoming : List ℕ)

/-- The socket while a method of the response `owner` runs. -/
structure Peer (kernel : Net.Kernel) where
  net : Net.State
  owner : ℕ
  events : List Event

instance (kernel : Net.Kernel) : Connection (Peer kernel) where
  writable p := p.net.sock.writable
  write p chunk encoding :=
    let r := Net.write kernel p.net (Net.Chunk.data chunk) encoding none none
    (r.1, { p with net := r.2, events := p.events ++ [.wrote p.owner chunk encoding] })

/-- Who has called `abortIncoming`: `onend`, or the handler of `'close'`. -/
inductive Aborter
  | onend
  | close

/-- The variables of `connectionListener`. Requests and responses are numbered in the order of
their arrival; `ended` says that the parser gets nothing more, and `aborting` that the loop of
`abortIncoming` is running. -/
structure Server where
  net : Net.State
  httpMessage : Option ℕ
  responses : List Outgoing
  outgoing : List ℕ
  incoming : List ℕ
  aborting : Option Aborter
  ended : Bool
  events : List Event

def Server.new (pool : Net.Pool) (unix : Bool) : Server where
  net := ⟨pool, .new unix false⟩
  httpMessage := none
  responses := []
  outgoing := []
  incoming := []
  aborting := none
  ended := false
  events := []

variable (kernel : Net.Kernel)

/-- A method of a response. It may throw; then there is no result. -/
def Server.run {α : Type} (s : Server) (k : ℕ) (x : M (Peer kernel) α) : Option α × Server :=
  match s.responses[k]? with
  | none => (none, s)
  | some res =>
    match x ⟨res, ⟨s.net, k, s.events⟩⟩ with
    | .ok a e => (some a, { s with
        net := e.sock.net, events := e.sock.events, responses := s.responses.set k e.msg })
    | .error _ e => (none, { s with
        net := e.sock.net, events := e.sock.events, responses := s.responses.set k e.msg })

/-- `assignSocket`, which asserts that the socket has no message. -/
def assign (s : Server) (k : ℕ) : Option Flushed × Server :=
  if s.httpMessage.isSome then (none, s)
  else Server.run kernel { s with httpMessage := some k } k assignSocket

/-- The handler of `'finish'` up to the next message, and whether there may be one. Its own
assertion and the one of `detachSocket` may throw. -/
def release (s : Server) (k : ℕ) : Bool × Server :=
  match s.responses[k]? with
  | none => (false, s)
  | some res =>
    let s := { s with events := s.events ++ [.finish k res.last s.incoming] }
    if s.incoming = [] ∨ s.incoming.head? = some k then
      let s := { s with incoming := s.incoming.tail }
      if s.httpMessage = some k then
        let s := { s with
          httpMessage := none
          responses := s.responses.set k (detachSocket res) }
        if res.last then (false, { s with net := (Net.destroySoon kernel s.net).2 })
        else (true, s)
      else (false, s)
    else (false, s)

/-- The handler of `'finish'`, given `outgoing`. The next message may be finished as well. -/
def onFinish : List ℕ → ℕ → Server → Server
  | [], k, s => (release kernel s k).2
  | j :: outgoing, k, s =>
    match release kernel s k with
    | (false, s) => s
    | (true, s) =>
      match assign kernel { s with outgoing := outgoing } j with
      | (some .finish, s) => onFinish outgoing j s
      | (_, s) => s

/-- What `onIncoming` looks at in a request. `expectContinue` is the test of its headers and its
version for `Expect: 100-continue`. -/
structure Request where
  head : Bool
  http11 : Bool
  shouldKeepAlive : Bool
  expectContinue : Bool

def Request.response (req : Request) : Outgoing :=
  { ServerResponse.new req.head req.http11 with
    shouldKeepAlive := req.shouldKeepAlive
    expectContinue := req.expectContinue }

def Server.push (s : Server) (req : Request) : Server :=
  { s with
    incoming := s.incoming ++ [s.responses.length]
    responses := s.responses ++ [req.response] }

/-- `parser.onIncoming`, up to the call of the user's handler. `checkContinue` says that there
is a listener for it. -/
def onIncoming (s : Server) (req : Request) (checkContinue : Bool) : Server :=
  let k := s.responses.length
  let s := s.push req
  let s :=
    if s.httpMessage.isSome then { s with outgoing := s.outgoing ++ [k] }
    else (assign kernel s k).2
  if req.expectContinue && !checkContinue then (Server.run kernel s k writeContinue).2 else s

/-- The methods a handler may call on a response, at any time. -/
inductive Method
  | call (c : Call)
  | setHeader (name : JSString) (value : Value)
  | removeHeader (name : JSString)
  | addTrailers (headers : List Line)

def perform (s : Server) (k : ℕ) : Method → Server
  | .call .writeContinue => (s.run kernel k writeContinue).2
  | .call (.writeHead statusCode reasonPhrase obj) =>
    (s.run kernel k (writeHead statusCode reasonPhrase obj)).2
  | .call (.write chunk encoding) => (s.run kernel k (write chunk encoding)).2
  | .call (.end data encoding) =>
    match s.run kernel k («end» data encoding) with
    | (some (_, true), s) => onFinish kernel s.outgoing k s
    | (_, s) => s
  | .setHeader name value => (s.run kernel k (setHeader name value)).2
  | .removeHeader name => (s.run kernel k (removeHeader name)).2
  | .addTrailers headers => (s.run kernel k (addTrailers headers)).2

def onWritable (s : Server) : Server :=
  match Net.flush kernel s.net with
  | (.ok true, net) => { s with net := if net.sock.destroyOnDrain then Net.destroy net else net }
  | (_, net) => { s with net := net }

/-- `if (socket.writable) socket.end()` -/
def endSocket (s : Server) : Server :=
  if s.net.sock.writable then { s with net := (Net.end kernel s.net none).2 } else s

/-- The loop of `abortIncoming` goes on, after the listeners for `'aborted'` and `'close'` of the
request that was shifted last. At its end `onend` ends the socket. -/
def abortIncoming (s : Server) : Option Server :=
  match s.aborting, s.incoming with
  | none, _ => none
  | some _, _ :: incoming => some { s with incoming := incoming }
  | some .onend, [] => some (endSocket kernel { s with aborting := none })
  | some .close, [] => some { s with aborting := none }

/-- `_last = true` -/
def setLast (s : Server) (k : ℕ) : Server :=
  { s with responses := s.responses.modify k fun res => { res with last := true } }

/-- `_onReadable` at the end of the input, and `onend`. -/
def onEnd (httpAllowHalfOpen parseError : Bool) (s : Server) : Server :=
  let net := { s.net with sock := { s.net.sock with readable := false } }
  let s := { s with ended := true, net := if net.sock.writable then net else Net.destroy net }
  if parseError then { s with net := Net.destroy s.net }
  else if !httpAllowHalfOpen then { s with aborting := some .onend }
  else
    match s.outgoing.getLast?, s.httpMessage with
    | some k, _ => setLast s k
    | none, some k => setLast s k
    | none, none => endSocket kernel s

/-- What can happen on a connection. `destroy` is for timeouts, parse errors and the user. While
`abortIncoming` runs, only listeners do something, until they return. -/
inductive Action
  | incoming (req : Request) (checkContinue : Bool)
  | method (k : ℕ) (m : Method)
  | writable
  | «end» (parseError : Bool)
  | close
  | abort
  | destroy

def step (httpAllowHalfOpen : Bool) (s : Server) : Action → Option Server
  | .incoming req checkContinue =>
    if s.ended then none else some (onIncoming kernel s req checkContinue)
  | .method k m => if k < s.responses.length then some (perform kernel s k m) else none
  | .writable => if s.aborting.isSome then none else some (onWritable kernel s)
  | .end parseError =>
    if s.ended then none else some (onEnd kernel httpAllowHalfOpen parseError s)
  | .close =>
    if s.net.sock.destroyed ∧ s.aborting = none then
      some { s with ended := true, aborting := some .close }
    else none
  | .abort => abortIncoming kernel s
  | .destroy => some { s with net := Net.destroy s.net }

end NodeJS.Http
