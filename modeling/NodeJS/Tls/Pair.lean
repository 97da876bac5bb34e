import Mathlib.Data.Int.Notation
import Mathlib.Logic.Function.Basic
import NodeJS.Buffer.Encoding
import NodeJS.Lib.Reach

/-! `tls.js`: `SecurePair` with its two streams. `cycle`, `_pull` and `_push` call handlers of the
program, which may call them again, so a state has the calls that have not returned. -/
namespace NodeJS.Tls

inductive Side
  | cleartext
  | encrypted
  deriving DecidableEq, Repr

def Side.other : Side → Side
  | .cleartext => .encrypted
  | .encrypted => .cleartext

/-- An element of `_pending`: a Buffer, or `END_OF_FILE`. -/
inductive Item
  | data (b : Bytes)
  | endOfFile
  deriving DecidableEq, Repr

/-- A `CryptoStream`. The last four fields are not of the object: they record the Buffers written to
it and those that the binding has accepted, whether `END_OF_FILE` was processed, and whether the
binding has refused the first element of `_pending` since the stream was last written to. -/
structure CryptoStream where
  writable : Bool
  paused : Bool
  pending : List Item
  pendingCallbacks : List (Option ℕ)
  pendingBytes : ℤ
  destroyAfterPush : Bool
  doneFlag : Bool
  written : List Bytes
  accepted : List Bytes
  ended : Bool
  refused : Bool

def CryptoStream.new : CryptoStream :=
  ⟨true, false, [], [], 0, false, false, [], [], false, false⟩

/-- An element is added to `_pending`. -/
def CryptoStream.queue (x : CryptoStream) (item : Item) (cb : Option ℕ) : CryptoStream :=
  { x with
    pending := x.pending ++ [item]
    pendingCallbacks := x.pendingCallbacks ++ [cb]
    refused := false }

def CryptoStream.write (x : CryptoStream) (data : Bytes) (cb : Option ℕ) : CryptoStream :=
  { x.queue (.data data) cb with
    pendingBytes := x.pendingBytes + data.length
    written := x.written ++ [data] }

def CryptoStream.finish (x : CryptoStream) : CryptoStream :=
  { x.queue .endOfFile none with writable := false }

def CryptoStream.shift (x : CryptoStream) : CryptoStream :=
  { x with
    pending := x.pending.tail
    pendingCallbacks := x.pendingCallbacks.tail
    refused := false }

def CryptoStream.unshift (x : CryptoStream) (tmp : Bytes) (cb : Option ℕ) : CryptoStream :=
  { x with
    pending := .data tmp :: x.pending
    pendingCallbacks := cb :: x.pendingCallbacks }

/-- The binding has answered for `tmp`. -/
def CryptoStream.answered (x : CryptoStream) (tmp : Bytes) (took : Bool) : CryptoStream :=
  if took then { x with accepted := x.accepted ++ [tmp] } else { x with refused := true }

def CryptoStream.settle (x : CryptoStream) (tmp : Bytes) : CryptoStream :=
  { x with pendingBytes := x.pendingBytes - tmp.length }

/-- What `cycle` does under each of its four locks. -/
inductive Phase
  | pull (side : Side)
  | push (side : Side)
  deriving DecidableEq, Repr

def Phase.next : Phase → Option Phase
  | .pull .encrypted => some (.pull .cleartext)
  | .pull .cleartext => some (.push .cleartext)
  | .push .cleartext => some (.push .encrypted)
  | .push .encrypted => none

/-- Where a call of `cycle` is. -/
inductive Place
  | before (phase : Phase)
  | within (phase : Phase)
  | last
  deriving DecidableEq, Repr

def Place.after (phase : Phase) : Place :=
  match phase.next with
  | some phase => .before phase
  | none => .last

/-- Where a call of `_pull` is: at the head of its loop, or in a call that it makes. -/
inductive Pull
  | loop
  /-- `'secure'` is emitted. The binding has answered for `tmp`. -/
  | secure (tmp : Bytes) (cb : Option ℕ) (took : Bool)
  /-- The callback of a write that was accepted. -/
  | callback
  /-- The `cycle` for `END_OF_FILE`. -/
  | endOfFile
  /-- `'drain'` is emitted. -/
  | drain
  /-- `'error'` is emitted. -/
  | error
  deriving DecidableEq, Repr

/-- Where a call of `_push` is. -/
inductive Push
  | loop
  | fill (bytesRead : ℕ)
  | secure (bytesRead : ℕ) (chunkBytes : ℤ)
  /-- `'data'` is emitted, and `ondata` is called. -/
  | data
  | error
  deriving DecidableEq, Repr

inductive Frame
  | cycle (depth : ℕ) (established : Bool) (place : Place)
  | pull (side : Side) (havePending : Bool) (pc : Pull)
  | push (side : Side) (pc : Push)
  /-- `end`, in the `write` that it calls. -/
  | «end» (side : Side)
  deriving DecidableEq, Repr

/-- Whether the call waits for a handler of the program. -/
def Frame.calls : Frame → Bool
  | .pull _ _ .loop => false
  | .pull _ _ .endOfFile => false
  | .pull _ _ _ => true
  | .push _ .loop => false
  | .push _ (.fill _) => false
  | .push _ _ => true
  | .cycle _ _ _ => false
  | .end _ => false

/-- A `SecurePair`. `ssl` is null exactly when `doneFlag` is set. -/
structure Pair where
  stream : Side → CryptoStream
  established : Bool
  doneFlag : Bool
  writeCalled : Bool
  isServer : Bool
  rejectUnauthorized : Bool
  locks : Phase → Bool
  stack : List Frame

def Pair.new (isServer rejectUnauthorized : Bool) : Pair where
  stream := fun _ => .new
  established := false
  doneFlag := false
  writeCalled := false
  isServer := isServer
  rejectUnauthorized := rejectUnauthorized
  locks := fun _ => false
  stack := []

/-- The message of `ssl.error`, as far as `error` looks at it. -/
inductive Err
  | noCertificate
  | other
  deriving DecidableEq, Repr

/-- What the binding answers in one step: whether it takes the Buffer, all of it or nothing, what it
has put into the pool, whether there is an `ssl.error`, `isInitFinished`, and whether it has bytes
left for the stream. -/
structure Answer where
  took : Bool
  chunkBytes : ℤ
  error : Option Err
  initFinished : Bool
  internallyPending : Bool

def Pair.update (s : Pair) (side : Side) (f : CryptoStream → CryptoStream) : Pair :=
  { s with stream := Function.update s.stream side (f (s.stream side)) }

def destroy (s : Pair) : Pair :=
  if s.doneFlag then s
  else { s with
    doneFlag := true
    stream := fun side => { s.stream side with writable := false } }

def done (s : Pair) (side : Side) : Pair :=
  let s := s.update side fun x => { x with doneFlag := true }
  if (s.stream .cleartext).doneFlag ∧ (s.stream .encrypted).doneFlag then destroy s else s

/-- The begin of `cycle`. -/
def cycle (s : Pair) (depth : ℕ) : Pair :=
  if s.doneFlag then s
  else { s with
    writeCalled := if depth = 0 then false else s.writeCalled
    stack := .cycle depth s.established (.before (.pull .encrypted)) :: s.stack }

/-- `write` on a stream that is writable. -/
def write (s : Pair) (side : Side) (data : Bytes) (cb : Option ℕ) : Pair :=
  cycle { s.update side fun x => x.write data cb with writeCalled := true } 0

/-- `end` after its `write`. -/
def finish (s : Pair) (side : Side) : Pair := cycle (s.update side CryptoStream.finish) 0

def «end» (s : Pair) (side : Side) (data : Option Bytes) : Pair :=
  if s.doneFlag ∨ (s.stream side).writable = false then s
  else match data with
    | none => finish s side
    | some data => write { s with stack := .end side :: s.stack } side data none

/-- `SecurePair.prototype.error`, and whether it emits `'error'`. -/
def error (s : Pair) (e : Err) : Bool × Pair :=
  if s.established = false then (false, destroy s)
  else if s.isServer ∧ s.rejectUnauthorized ∧ e = .noCertificate then (false, destroy s)
  else (true, s)

/-- Whether `maybeInitFinished` emits `'secure'`. -/
def finishesInit (s : Pair) (initFinished : Bool) : Bool :=
  !s.doneFlag && !s.established && initFinished

/-- The loop of `_pull` is left. -/
def leavePull (s : Pair) (side : Side) (havePending : Bool) (rest : List Frame) : Pair :=
  if havePending ∧ (s.stream side).pending = [] then
    { s with stack := .pull side havePending .drain :: rest }
  else { s with stack := rest }

/-- A round of `_pull` after `maybeInitFinished`. -/
def pulled (s : Pair) (side : Side) (havePending : Bool) (tmp : Bytes) (cb : Option ℕ)
    (took : Bool) (rest : List Frame) : Option Pair :=
  if took then
    let s := s.update side fun x => x.settle tmp
    if (s.stream side).pendingBytes < 0 then none
    else
      let pc : Pull := if cb.isSome then .callback else .loop
      some { s with stack := .pull side havePending pc :: rest }
  else some (leavePull (s.update side fun x => x.unshift tmp cb) side havePending rest)

/-- A round of the loop of `_pull`. -/
def pull (s : Pair) (side : Side) (havePending : Bool) (rest : List Frame) (a : Answer) :
    Option Pair :=
  match (s.stream side).pending with
  | [] => some (leavePull s side havePending rest)
  | item :: _ =>
    if s.doneFlag then some (leavePull s side havePending rest)
    else
      let cb := (s.stream side).pendingCallbacks.head?.join
      let s := s.update side CryptoStream.shift
      if (s.stream side).pending.length ≠ (s.stream side).pendingCallbacks.length then none
      else match item with
        | .endOfFile =>
          let s := s.update side fun x => { x with ended := true }
          let s := s.update side.other fun x => { x with destroyAfterPush := true }
          some (cycle { s with stack := .pull side havePending .endOfFile :: rest } 0)
        | .data [] => some { s with stack := .pull side havePending .loop :: rest }
        | .data tmp =>
          let s := s.update side fun x => x.answered tmp a.took
          match a.error with
          | some e =>
            let (emits, s) := error s e
            some { s with
              stack := if emits then .pull side havePending .error :: rest else rest }
          | none =>
            if finishesInit s a.initFinished then
              some { s with
                established := true
                stack := .pull side havePending (.secure tmp cb a.took) :: rest }
            else pulled s side havePending tmp cb a.took rest

def kPool : ℕ := 16 * 4096

/-- The inner loop of `_push` after `maybeInitFinished`. -/
def pushed (s : Pair) (side : Side) (bytesRead : ℕ) (chunkBytes : ℤ) (internallyPending : Bool)
    (rest : List Frame) : Pair :=
  let bytesRead := bytesRead + chunkBytes.toNat
  if chunkBytes > 0 ∧ bytesRead < kPool then
    { s with stack := .push side (.fill bytesRead) :: rest }
  else if bytesRead = 0 then
    let s := { s with stack := rest }
    if (s.doneFlag ∨ internallyPending = false) ∧ (s.stream side).destroyAfterPush then
      done s side
    else s
  else { s with stack := .push side .data :: rest }

def push (s : Pair) (side : Side) (bytesRead : ℕ) (rest : List Frame) (a : Answer) : Pair :=
  let chunkBytes := if s.doneFlag then -1 else a.chunkBytes
  match (if s.doneFlag then none else a.error) with
  | some e =>
    let (emits, s) := error s e
    { s with stack := if emits then .push side .error :: rest else rest }
  | none =>
    if finishesInit s a.initFinished then
      { s with
        established := true
        stack := .push side (.secure bytesRead chunkBytes) :: rest }
    else pushed s side bytesRead chunkBytes a.internallyPending rest

/-- The begin of `_pull` or `_push`. -/
def enter (s : Pair) (phase : Phase) (stack : List Frame) : Option Pair :=
  match phase with
  | .pull side =>
    let havePending := !(s.stream side).pending.isEmpty
    if havePending = false ∧ (s.stream side).pendingBytes ≠ 0 then none
    else some { s with stack := .pull side havePending .loop :: stack }
  | .push side =>
    if side = .encrypted ∧ (s.stream side).writable = false then some { s with stack := stack }
    else some { s with stack := .push side .loop :: stack }

def go (s : Pair) (a : Answer) : Option Pair :=
  match s.stack with
  | .cycle depth established (.before phase) :: rest =>
    if s.locks phase then
      some { s with stack := .cycle depth established (.after phase) :: rest }
    else
      enter { s with locks := Function.update s.locks phase true } phase
        (.cycle depth established (.within phase) :: rest)
  | .cycle depth established (.within phase) :: rest =>
    some { s with
      locks := Function.update s.locks phase false
      stack := .cycle depth established (.after phase) :: rest }
  | .cycle depth established .last :: rest =>
    let s' := { s with stack := rest }
    if (established = false ∧ s.established) ∨ (depth = 0 ∧ s.writeCalled) then
      some (cycle s' (depth + 1))
    else some s'
  | .pull side havePending .loop :: rest => pull s side havePending rest a
  | .pull side _ .endOfFile :: rest => some (done { s with stack := rest } side)
  | .push side .loop :: rest =>
    if (s.stream side).paused then some { s with stack := rest }
    else some { s with stack := .push side (.fill 0) :: rest }
  | .push side (.fill bytesRead) :: rest => some (push s side bytesRead rest a)
  | .end side :: rest => some (finish { s with stack := rest } side)
  | _ => none

def ret (s : Pair) (a : Answer) : Option Pair :=
  match s.stack with
  | .pull side havePending (.secure tmp cb took) :: rest =>
    pulled s side havePending tmp cb took rest
  | .pull side havePending .callback :: rest =>
    some { s with stack := .pull side havePending .loop :: rest }
  | .pull _ _ .drain :: rest => some { s with stack := rest }
  | .pull _ _ .error :: rest => some { s with stack := rest }
  | .push side (.secure bytesRead chunkBytes) :: rest =>
    some (pushed s side bytesRead chunkBytes a.internallyPending rest)
  | .push side .data :: rest => some { s with stack := .push side .loop :: rest }
  | .push _ .error :: rest => some { s with stack := rest }
  | _ => none

/-- A call by the program, from a handler or from the outside, the return of a handler, or the next
step of a call. -/
inductive Action
  | write (side : Side) (data : Bytes) (cb : Option ℕ)
  | «end» (side : Side) (data : Option Bytes)
  | pause (side : Side)
  | resume (side : Side)
  | destroy
  | cycle
  | ret (a : Answer)
  | go (a : Answer)

def Pair.calls (s : Pair) : Bool :=
  match s.stack with
  | [] => true
  | frame :: _ => frame.calls

def step (s : Pair) : Action → Option Pair
  | .write side data cb =>
    if s.calls ∧ (s.stream side).writable then some (write s side data cb) else none
  | .end side data => if s.calls then some («end» s side data) else none
  | .pause side =>
    if s.calls then some (s.update side fun x => { x with paused := true }) else none
  | .resume side =>
    if s.calls then some (cycle (s.update side fun x => { x with paused := false }) 0) else none
  | .destroy => if s.calls then some (destroy s) else none
  | .cycle => if s.calls then some (cycle s 0) else none
  | .ret a => ret s a
  | .go a => go s a

end NodeJS.Tls
