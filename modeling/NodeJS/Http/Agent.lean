import Mathlib.Data.Int.Notation
import Mathlib.Data.List.Nodup
import Mathlib.Logic.Function.Basic
import NodeJS.Lib.Reach

/-! The client half of `http.js`: an `Agent` with its queue and its sockets. What a handler has
still to do after it called a listener, or `_cycle`, is a frame on an explicit call stack, so the
calls that a listener makes may come in the middle of any handler. -/
namespace NodeJS.Agent

/-- `ClientRequest`; `queued` says that `_queue` is set, `res` that a response is. -/
structure ClientRequest where
  queued : Bool
  connection : Option ℕ
  res : Bool
  hadError : Bool
  shouldKeepAlive : Bool

/-- A socket of `net.js` with the fields that `Agent` puts on it. `looking` waits for the address,
`exception` and `closing` are the events that the next tick has to emit, `listening` and `upgraded`
tell which handlers are set, `reading` is the request whose response the parser is in. -/
structure Socket where
  fd : Bool
  looking : Bool
  connecting : Bool
  readable : Bool
  writable : Bool
  destroyed : Bool
  exception : Bool
  closing : Bool
  httpMessage : Option ℕ
  httpConnecting : Bool
  listening : Bool
  upgraded : Bool
  reading : Option ℕ

/-- The rest of a call that has not returned. -/
inductive Frame where
  | user
  | cycle
  | established (socket : ℕ)
  | execute (socket : ℕ)
  | finish (socket : ℕ)
  | destroy (socket : ℕ)
  | errored (socket : ℕ) (req : Option ℕ)
  | hungUp (socket : ℕ)
  | remove (socket : ℕ)

inductive Event where
  | abort (req : ℕ)
  | error (req : ℕ)
  | continued (req : ℕ)
  | response (req : ℕ)
  | upgrade (req : ℕ)
  | complete (req : ℕ)
  | aborted (req : ℕ)
  deriving DecidableEq

structure State where
  maxSockets : ℕ
  queue : List ℕ
  sockets : List ℕ
  request : ℕ → ClientRequest
  requests : ℕ
  socket : ℕ → Socket
  connections : ℕ
  stack : List Frame
  events : List Event

def ClientRequest.new : ClientRequest := ⟨false, none, false, false, false⟩

def Socket.new : Socket :=
  ⟨false, true, true, false, true, false, false, false, none, false, false, false, none⟩

def State.new (maxSockets : ℕ) : State :=
  ⟨maxSockets, [], [], fun _ => .new, 0, fun _ => .new, 0, [], []⟩

/-! ### Arrays -/

def indexOf (l : List ℕ) (x : ℕ) : ℤ :=
  if x ∈ l then l.idxOf x else -1

/-- `l.splice(i, 1)`: a negative index counts from the end. -/
def splice (l : List ℕ) (i : ℤ) : List ℕ :=
  l.eraseIdx (if i < 0 then (l.length + i).toNat else i.toNat)

theorem splice_indexOf {l : List ℕ} {x : ℕ} (h : x ∈ l) : splice l (indexOf l x) = l.erase x := by
  unfold splice indexOf
  rw [if_pos h, if_neg (by omega), Int.toNat_natCast, List.erase_eq_eraseIdx_of_idxOf rfl]

/-! ### State updates -/

def State.setRequest (s : State) (r : ℕ) (f : ClientRequest → ClientRequest) : State :=
  { s with request := Function.update s.request r (f (s.request r)) }

def State.setSocket (s : State) (c : ℕ) (f : Socket → Socket) : State :=
  { s with socket := Function.update s.socket c (f (s.socket c)) }

@[simp] theorem State.request_setRequest (s : State) (r : ℕ) (f : ClientRequest → ClientRequest) :
    (s.setRequest r f).request r = f (s.request r) :=
  Function.update_self ..

theorem State.request_setRequest_of_ne (s : State) {r i : ℕ} (h : i ≠ r)
    (f : ClientRequest → ClientRequest) : (s.setRequest r f).request i = s.request i :=
  Function.update_of_ne h ..

@[simp] theorem State.socket_setSocket (s : State) (c : ℕ) (f : Socket → Socket) :
    (s.setSocket c f).socket c = f (s.socket c) :=
  Function.update_self ..

theorem State.socket_setSocket_of_ne (s : State) {c d : ℕ} (h : d ≠ c) (f : Socket → Socket) :
    (s.setSocket c f).socket d = s.socket d :=
  Function.update_of_ne h ..

def State.emit (s : State) (e : Event) : State :=
  { s with events := e :: s.events }

def State.call (s : State) (frames : List Frame) : State :=
  { s with stack := frames ++ s.stack }

def Frame.isUser : Frame → Bool
  | .user => true
  | _ => false

/-- An exception leaves every call up to the next one made by a listener. -/
def State.throw (s : State) : State :=
  { s with stack := s.stack.dropWhile fun f => !f.isUser }

/-! ### net.js -/

def Socket.destroy (k : Socket) (exception : Bool) : Socket :=
  let k := { k with readable := false, writable := false, destroyed := true }
  if k.fd then { k with fd := false, exception := exception, closing := true } else k

/-- How the address lookup and the call of `connect` end. -/
inductive Lookup where
  | failed
  | started
  | refused

def Socket.lookedUp (k : Socket) : Lookup → Socket
  | .failed => { k with looking := false, exception := true }
  | .started => { k with looking := false, fd := true }
  | .refused =>
    let k := { k with looking := false, fd := true }
    if k.destroyed then k else k.destroy true

/-- `net.createConnection`; the address of a numeric host is known at once. -/
def getConnection : Option Lookup → Socket
  | none => .new
  | some lookup => Socket.new.lookedUp lookup

/-! ### OutgoingMessage -/

def State.assignSocket (s : State) (r c : ℕ) : State :=
  if (s.socket c).httpMessage.isSome then s.throw
  else
    ((s.setSocket c fun k => { k with httpMessage := some r }).setRequest r fun q =>
      { q with connection := some c }).call [.user]

def State.detachSocket (s : State) (r c : ℕ) : State :=
  (s.setSocket c fun k => { k with httpMessage := none }).setRequest r fun q =>
    { q with connection := none }

/-! ### Agent -/

def State.removeSocket (s : State) (c : ℕ) : State :=
  if 0 ≤ indexOf s.sockets c then { s with sockets := splice s.sockets (indexOf s.sockets c) }
  else s

def State.establishNewConnection (s : State) (lookup : Option Lookup) : State :=
  if s.sockets.length < s.maxSockets then
    let c := s.connections
    let s := { s with connections := c + 1, sockets := s.sockets ++ [c] }
    (s.setSocket c fun _ => { getConnection lookup with httpConnecting := true }).call
      [.cycle, .established c]
  else s.throw

def Socket.available (k : Socket) : Bool :=
  k.httpMessage.isNone && (k.writable && k.readable || k.httpConnecting)

/-- The socket that `_cycle` gives to the first request of the queue. -/
def State.taken (s : State) : Option ℕ :=
  s.sockets.find? fun c => (s.socket c).available

def State.cycle (s : State) (lookup : Option Lookup) : State :=
  match s.queue with
  | [] => s
  | first :: rest =>
    match s.taken with
    | some c =>
      let s := { s with queue := rest }
      if (s.request first).queued then
        ((s.setRequest first fun q => { q with queued := false }).call [.cycle]).assignSocket first c
      else s.throw
    | none => if s.sockets.length < s.maxSockets then s.establishNewConnection lookup else s

def State.appendMessage (s : State) : State :=
  let r := s.requests
  ({ s with requests := r + 1, queue := s.queue ++ [r] }.setRequest r fun _ =>
    { ClientRequest.new with queued := true }).call [.cycle]

def State.abort (s : State) (r : ℕ) : State :=
  let s := s.emit (.abort r)
  if (s.request r).queued then
    if (s.request r).connection.isSome then s.throw
    else { s with queue := splice s.queue (indexOf s.queue r) }
  else
    match (s.request r).connection with
    | some c =>
      if (s.socket c).httpMessage = some r then
        (s.detachSocket r c).setSocket c (·.destroy false)
      else s.throw
    | none => s

/-! ### Handlers -/

/-- `onIncoming`; `close` says that the headers have `connection: close`. -/
def State.onIncoming (s : State) (c statusCode : ℕ) (close : Bool) : State :=
  match (s.socket c).httpMessage with
  | none => s.setSocket c (·.destroy false)
  | some r =>
    let s := s.setRequest r fun q => { q with res := true }
    if statusCode = 100 then (s.emit (.continued r)).call [.user]
    else
      let s := s.setRequest r fun q =>
        if q.shouldKeepAlive && close then { q with shouldKeepAlive := false } else q
      ((s.setSocket c fun k => { k with reading := some r }).emit (.response r)).call [.user]

/-- `destroySoon`: `soon` tells whether the socket is destroyed at once, and whether by an error of
its write. -/
def State.destroySoon (s : State) (c : ℕ) (soon : Option Bool) : State :=
  match soon with
  | some exception => s.setSocket c (·.destroy exception)
  | none => s

/-- The 'end' listener of the response to `r`. -/
def State.onEnd (s : State) (c r : ℕ) (soon : Option Bool) : State :=
  let s := (s.setSocket c fun k => { k with reading := none }).emit (.complete r)
  let s := if !(s.request r).shouldKeepAlive && (s.socket c).writable then s.destroySoon c soon else s
  if !(s.request r).shouldKeepAlive && (s.socket c).writable then s.throw
  else
    match (s.socket c).httpMessage with
    | none => s.call [.cycle, .user]
    | some m => if m = r then (s.detachSocket r c).call [.cycle, .user] else s.throw

/-- The end of `ondata` when the parser has met a protocol upgrade; `handled` says that the agent
has an 'upgrade' listener. -/
def State.onUpgrade (s : State) (c : ℕ) (handled : Bool) : State :=
  let s := s.setSocket c fun k => { k with upgraded := true }
  match (s.socket c).httpMessage with
  | none => s.throw
  | some r =>
    let s := ((s.setRequest r fun q => { q with res := true }).emit (.upgrade r)).removeSocket c
    if handled then s.call [.user] else s.setSocket c (·.destroy false)

def State.onError (s : State) (c : ℕ) : State :=
  match (s.socket c).httpMessage with
  | some r => (s.emit (.error r)).call [.user, .errored c (some r)]
  | none =>
    match s.queue with
    | r :: rest =>
      let s := { s with queue := rest }
      if (s.request r).queued then
        ((s.setRequest r fun q => { q with queued := false }).emit (.error r)).call
          [.user, .errored c (some r)]
      else s.throw
    | [] => s.call [.errored c none]

def State.onClose (s : State) (c : ℕ) : State :=
  match (s.socket c).httpMessage with
  | none => s.call [.remove c]
  | some r =>
    if (s.request r).res then (s.emit (.aborted r)).call [.user, .hungUp c]
    else if (s.request r).hadError then s.call [.remove c]
    else (s.emit (.error r)).call [.user, .remove c]

/-- `_onConnect` and the callback of `_getConnection`. -/
def State.onConnect (s : State) (c : ℕ) : State :=
  let s := s.setSocket c fun k => { k with connecting := false }
  if (s.socket c).writable then
    (s.setSocket c fun k => { k with readable := true, httpConnecting := false }).call
      [.user, .cycle]
  else s.throw

/-- The end of the stream in `_onReadable`; `soon` tells what comes of `end()`, whose shutdown
destroys a socket that is not readable. -/
def State.onEof (s : State) (c : ℕ) (soon : Option Bool) : State :=
  let s := s.setSocket c fun k => { k with readable := false }
  let s := if (s.socket c).writable then s.destroySoon c soon else s.setSocket c (·.destroy false)
  if (s.socket c).listening && !(s.socket c).upgraded then s.call [.user, .finish c, .destroy c]
  else s.call [.user]

theorem State.onEnd_cases (s : State) (c r : ℕ) (soon : Option Bool) :
    ∃ s₁ s₂, s₁ = (s.setSocket c fun k => { k with reading := none }).emit (.complete r) ∧
      (s₂ = s₁ ∨ s₂ = s₁.destroySoon c soon) ∧
      (s.onEnd c r soon = s₂.throw ∨ s.onEnd c r soon = s₂.call [.cycle, .user] ∨
        (s₂.socket c).httpMessage = some r ∧
          s.onEnd c r soon = (s₂.detachSocket r c).call [.cycle, .user]) := by
  unfold State.onEnd
  dsimp only
  generalize (s.setSocket c fun k => { k with reading := none }).emit (.complete r) = s₁
  have hsoon : ∀ s₂, s₂ = (if !(s₁.request r).shouldKeepAlive && (s₁.socket c).writable then
      s₁.destroySoon c soon else s₁) → s₂ = s₁ ∨ s₂ = s₁.destroySoon c soon := by
    intro s₂ hs₂
    rw [hs₂]
    split_ifs
    · exact .inr rfl
    · exact .inl rfl
  generalize (if !(s₁.request r).shouldKeepAlive && (s₁.socket c).writable then
    s₁.destroySoon c soon else s₁) = s₂ at *
  refine ⟨s₁, s₂, rfl, hsoon s₂ rfl, ?_⟩
  split_ifs
  · exact .inl rfl
  · split
    · exact .inr (.inl rfl)
    · rename_i m hm
      split_ifs with hmr
      · exact .inr (.inr ⟨hmr ▸ hm, rfl⟩)
      · exact .inl rfl

theorem State.onEof_cases (s : State) (c : ℕ) (soon : Option Bool) :
    ∃ s₁ s₂, s₁ = (s.setSocket c fun k => { k with readable := false }) ∧
      (s₂ = s₁.destroySoon c soon ∨ s₂ = s₁.setSocket c (·.destroy false)) ∧
      (s.onEof c soon = s₂.call [.user, .finish c, .destroy c] ∨
        s.onEof c soon = s₂.call [.user]) := by
  unfold State.onEof
  dsimp only
  generalize s.setSocket c (fun k => { k with readable := false }) = s₁
  have hend : ∀ s₂, s₂ = (if (s₁.socket c).writable then s₁.destroySoon c soon
      else s₁.setSocket c (·.destroy false)) →
        s₂ = s₁.destroySoon c soon ∨ s₂ = s₁.setSocket c (·.destroy false) := by
    intro s₂ hs₂
    rw [hs₂]
    split_ifs
    · exact .inl rfl
    · exact .inr rfl
  generalize (if (s₁.socket c).writable then s₁.destroySoon c soon
    else s₁.setSocket c (·.destroy false)) = s₂ at *
  refine ⟨s₁, s₂, rfl, hend s₂ rfl, ?_⟩
  split_ifs
  · exact .inl rfl
  · exact .inr rfl

/-- The rest of a call whose frame is on top of the stack. -/
def State.resume (s : State) : Frame → Option State
  | .established c =>
    some (if (s.socket c).httpMessage.isSome then
      s.setSocket c fun k => { k with listening := true } else s.throw)
  | .destroy c => some (s.setSocket c (·.destroy false))
  | .errored c req =>
    let s := match req with
      | some r => s.setRequest r fun q => { q with hadError := true }
      | none => s
    some (s.call [.finish c, .destroy c, .remove c])
  | .hungUp c =>
    some (match (s.socket c).httpMessage with
      | some r => if (s.request r).res then s.call [.user, .remove c] else s.throw
      | none => s.throw)
  | .remove c => some ((s.removeSocket c).call [.cycle])
  | .user | .cycle | .execute _ | .finish _ => none

/-! ### Runs -/

/-- What a program may do, in a listener or outside of any. -/
inductive Call where
  | appendMessage
  | keepAlive (req : ℕ) (value : Bool)
  | abort (req : ℕ)
  | destroy (socket : ℕ) (exception : Bool)

/-- What the event loop may call. -/
inductive Tick where
  | lookup (socket : ℕ) (result : Lookup)
  | connect (socket : ℕ)
  | data (socket : ℕ)
  | eof (socket : ℕ) (soon : Option Bool)
  | error (socket : ℕ)
  | close (socket : ℕ)

/-- What the parser may call in `execute` and `finish`, and how it may return. -/
inductive Parse where
  | incoming (statusCode : ℕ) (close : Bool)
  | body
  | complete (soon : Option Bool)
  | fails
  | upgrade (handled : Bool)
  | done

inductive Action where
  | call (c : Call)
  | tick (t : Tick)
  | parse (p : Parse)
  | cycle (lookup : Option Lookup)
  | resume
  | returns
  | throws

/-- The program runs: in a listener, or with no handler under way. -/
def State.idle (s : State) : Bool :=
  match s.stack with
  | [] => true
  | f :: _ => f.isUser

def State.perform (s : State) : Call → Option State
  | .appendMessage => some s.appendMessage
  | .keepAlive r value =>
    if r < s.requests then some (s.setRequest r fun q => { q with shouldKeepAlive := value })
    else none
  | .abort r => if r < s.requests then some (s.abort r) else none
  | .destroy c exception =>
    if c < s.connections then some (s.setSocket c (·.destroy exception)) else none

def State.dispatch (s : State) : Tick → Option State
  | .lookup c result =>
    if c < s.connections ∧ (s.socket c).looking then some (s.setSocket c (·.lookedUp result))
    else none
  | .connect c =>
    if c < s.connections ∧ (s.socket c).fd ∧ (s.socket c).connecting ∧ !(s.socket c).destroyed then
      some (s.onConnect c)
    else none
  | .data c =>
    if c < s.connections ∧ (s.socket c).fd ∧ (s.socket c).readable ∧ (s.socket c).listening ∧
        !(s.socket c).upgraded then
      some (s.call [.execute c])
    else none
  | .eof c soon =>
    if c < s.connections ∧ (s.socket c).fd ∧ (s.socket c).readable then some (s.onEof c soon)
    else none
  | .error c =>
    if c < s.connections ∧ (s.socket c).exception then
      let s := s.setSocket c fun k => { k with exception := false }
      some (if (s.socket c).listening then s.onError c else s)
    else none
  | .close c =>
    if c < s.connections ∧ (s.socket c).closing ∧ !(s.socket c).exception then
      let s := s.setSocket c fun k => { k with closing := false }
      some (if (s.socket c).listening then s.onClose c else s)
    else none

/-- One call of the parser of socket `c`. Its frame `f` stays on the stack until it returns. -/
def State.parse (s : State) (f : Frame) (c : ℕ) : Parse → Option State
  | .incoming statusCode close =>
    if (s.socket c).reading = none then some ((s.call [f]).onIncoming c statusCode close) else none
  | .body => some (s.call [.user, f])
  | .complete soon =>
    match (s.socket c).reading with
    | some r => some ((s.call [f]).onEnd c r soon)
    | none => none
  | .fails => some (s.setSocket c (·.destroy true))
  | .upgrade handled =>
    if (s.socket c).reading = none then some (s.onUpgrade c handled) else none
  | .done => some s

/-- `finish` meets the end of a body, or nothing. -/
def Parse.finishes : Parse → Bool
  | .complete _ | .done => true
  | _ => false

def State.step (s : State) : Action → Option State
  | .call c => if s.idle then s.perform c else none
  | .tick t => if s.stack.isEmpty then s.dispatch t else none
  | .parse p =>
    match s.stack with
    | .execute c :: stack => { s with stack := stack }.parse (.execute c) c p
    | .finish c :: stack =>
      if p.finishes then { s with stack := stack }.parse (.finish c) c p else none
    | _ => none
  | .cycle lookup =>
    match s.stack with
    | .cycle :: stack => some ({ s with stack := stack }.cycle lookup)
    | _ => none
  | .resume =>
    match s.stack with
    | f :: stack => { s with stack := stack }.resume f
    | [] => none
  | .returns =>
    match s.stack with
    | .user :: stack => some { s with stack := stack }
    | _ => none
  | .throws =>
    match s.stack with
    | _ :: stack => some { s with stack := stack }.throw
    | [] => none

/-- What runs in a step from `s` to `s'`. -/
inductive Runs (s s' : State) : Action → Prop where
  | call {c : Call} (h : s.perform c = some s') : Runs s s' (.call c)
  | tick {t : Tick} (h : s.dispatch t = some s') : Runs s s' (.tick t)
  | execute {p : Parse} {c : ℕ} {stack : List Frame} (hs : s.stack = .execute c :: stack)
      (h : { s with stack := stack }.parse (.execute c) c p = some s') : Runs s s' (.parse p)
  | finish {p : Parse} {c : ℕ} {stack : List Frame} (hs : s.stack = .finish c :: stack)
      (hp : p.finishes = true) (h : { s with stack := stack }.parse (.finish c) c p = some s') :
      Runs s s' (.parse p)
  | cycle {lookup : Option Lookup} {stack : List Frame} (hs : s.stack = .cycle :: stack)
      (h : s' = { s with stack := stack }.cycle lookup) : Runs s s' (.cycle lookup)
  | resume {f : Frame} {stack : List Frame} (hs : s.stack = f :: stack)
      (h : { s with stack := stack }.resume f = some s') : Runs s s' .resume
  | returns {stack : List Frame} (hs : s.stack = .user :: stack)
      (h : s' = { s with stack := stack }) : Runs s s' .returns
  | throws {f : Frame} {stack : List Frame} (hs : s.stack = f :: stack)
      (h : s' = { s with stack := stack }.throw) : Runs s s' .throws

theorem runs_of_step {s s' : State} {a : Action} (h : s.step a = some s') : Runs s s' a := by
  unfold State.step at h
  cases a with
  | call c =>
    obtain ⟨_, h⟩ := Option.ite_none_right_eq_some.mp h
    exact .call h
  | tick t =>
    obtain ⟨_, h⟩ := Option.ite_none_right_eq_some.mp h
    exact .tick h
  | parse p =>
    dsimp only at h
    split at h
    · rename_i hs
      exact .execute hs h
    · rename_i hs
      obtain ⟨hp, h⟩ := Option.ite_none_right_eq_some.mp h
      exact .finish hs hp h
    · cases h
  | cycle lookup =>
    dsimp only at h
    split at h
    · rename_i hs
      exact .cycle hs (Option.some.inj h).symm
    · cases h
  | resume =>
    dsimp only at h
    split at h
    · rename_i hs
      exact .resume hs h
    · cases h
  | returns =>
    dsimp only at h
    split at h
    · rename_i hs
      exact .returns hs (Option.some.inj h).symm
    · cases h
  | throws =>
    dsimp only at h
    split at h
    · rename_i hs
      exact .throws hs (Option.some.inj h).symm
    · cases h

end NodeJS.Agent
