import NodeJS.Buffer.Text
import NodeJS.Lib.Reach

/-! `fs.js`: `ReadStream`, with the listeners it calls and what they may call in turn. -/
namespace NodeJS.Fs

def kMinPoolSpace : ℕ := 128

def kPoolSize : ℕ := 40 * 1024

/-- The options `start` and `end`, where `stop` is `end` unless that is `Infinity`. With
`start > end` the constructor throws. -/
structure Range where
  start : ℕ
  stop : Option ℕ
  start_le : ∀ e ∈ stop, start ≤ e

/-- A call of `fs.read`. -/
structure Read where
  length : ℕ
  position : Option ℕ

/-- `GET_OFFSET` of `node_file.cc`: a position that is not a 32-bit integer is taken for none. -/
def getOffset (position : Option ℕ) : Option ℕ := position.filter (· < 0x80000000)

/-- What is passed to `'data'` listeners. -/
inductive Data
  | buffer (b : Bytes)
  | string (s : JSString)

/-- What remains to be done when the listeners have returned: after `'data'`, `'data'` from
`resume`, `'end'`, `'error'` and `'open'`. -/
inductive Frame
  | read
  | resumed
  | ended
  | failed
  | opened
  deriving DecidableEq

/-- A `ReadStream` with a decoder of type `δ`. `stop` is its `end`, if that is not `Infinity`;
`openListeners` counts the functions `close` that wait for `'open'`, `reads` are the calls of
`fs.read` that have not returned, and `pool` is `pool.used` of the pool that all streams share.
The last seven fields record what happened. -/
structure ReadStream (δ : Type) where
  fd : Option ℕ
  opening : Bool
  readable : Bool
  paused : Bool
  reading : Bool
  bufferSize : ℕ
  start : Option ℕ
  stop : Option ℕ
  firstRead : Bool
  pos : Option ℕ
  buffer : Option Bytes
  decoder : Option δ
  openListeners : ℕ
  reads : List Read
  pool : Option ℕ
  stack : List Frame
  destroyed : Bool
  received : List Bytes
  given : List Bytes
  data : List Data
  late : List Data
  ended : Bool
  closes : ℕ

namespace ReadStream
variable {δ : Type}

/-- `pool.used` after the pool was replaced if there was too little room in it. -/
def poolUsed (s : ReadStream δ) : ℕ :=
  match s.pool with
  | none => 0
  | some used => if kPoolSize - used < kMinPoolSpace then 0 else used

/-- The pool always has room. -/
theorem poolUsed_lt (s : ReadStream δ) : s.poolUsed < kPoolSize := by
  unfold poolUsed
  split
  · decide
  · split_ifs with h
    · decide
    · unfold kPoolSize kMinPoolSpace at *
      omega

/-- `pos` once the first read has set it. -/
def readPos (s : ReadStream δ) : Option ℕ :=
  if s.start.isSome && s.firstRead then s.start else s.pos

def toRead (s : ReadStream δ) : ℕ :=
  let toRead := min (kPoolSize - s.poolUsed) s.bufferSize
  match s.readPos, s.stop with
  | some pos, some stop => min (stop + 1 - pos) toRead
  | _, _ => toRead

def read (s : ReadStream δ) : ReadStream δ :=
  if !s.readable || s.paused || s.reading then s
  else
    { s with
      reading := true
      pool := some (s.poolUsed + s.toRead)
      firstRead := s.firstRead && !s.start.isSome
      pos := s.readPos.map (· + s.toRead)
      reads := s.reads ++ [⟨s.toRead, s.readPos⟩] }

def emit (s : ReadStream δ) (d : Data) : ReadStream δ :=
  { s with
    data := s.data ++ [d]
    late := if s.destroyed then s.late ++ [d] else s.late }

/-- `_emitData`, and whether it emitted. -/
def emitData (decode : δ → Bytes → δ × JSString) (s : ReadStream δ) (d : Bytes) :
    ReadStream δ × Bool :=
  let s := { s with given := s.given ++ [d] }
  match s.decoder with
  | none => (s.emit (.buffer d), true)
  | some decoder =>
    let (decoder, string) := decode decoder d
    let s := { s with decoder := some decoder }
    if string.length ≠ 0 then (s.emit (.string string), true) else (s, false)

def destroy (s : ReadStream δ) : ReadStream δ :=
  let s := { s with readable := false, destroyed := true }
  match s.fd with
  | some (_ + 1) => { s with closes := s.closes + 1 }
  | _ => { s with openListeners := s.openListeners + 1 }

def leave (s : ReadStream δ) : Frame → ReadStream δ
  | .read => s.read
  | .opened => s.read
  | .resumed =>
    let s := { s with buffer := none }
    if s.fd.isNone then s else s.read
  | .ended => s.destroy
  | .failed => { s with readable := false }

/-- A call of `_emitData` and what follows it. -/
def emitThen (decode : δ → Bytes → δ × JSString) (s : ReadStream δ) (d : Bytes) (f : Frame) :
    ReadStream δ :=
  let (s, emitted) := s.emitData decode d
  if emitted then { s with stack := f :: s.stack } else s.leave f

def resume (decode : δ → Bytes → δ × JSString) (s : ReadStream δ) : ReadStream δ :=
  let s := { s with paused := false }
  match s.buffer with
  | some b => s.emitThen decode b .resumed
  | none => if s.fd.isNone then s else s.read

/-- The callback of `fs.open`. A function `close` among the listeners of `'open'` closes the file. -/
def afterOpen (s : ReadStream δ) : Option ℕ → ReadStream δ
  | none => { s with opening := false, stack := [.failed] }
  | some fd =>
    { s with
      opening := false
      fd := some fd
      closes := s.closes + s.openListeners
      stack := [.opened] }

/-- `afterRead`, with the bytes that were read unless there was an error. -/
def afterRead (decode : δ → Bytes → δ × JSString) (s : ReadStream δ) :
    Option Bytes → ReadStream δ
  | none => { s with reading := false, stack := [.failed] }
  | some [] => { s with reading := false, ended := true, stack := [.ended] }
  | some b =>
    let s := { s with reading := false, received := s.received ++ [b] }
    if s.paused then { s with buffer := some b }
    else if !s.readable then s
    else s.emitThen decode b .read

/-- Calls of `pause`, `resume` and `destroy` are made by listeners or from outside; `ret` is the
return of the listeners, and `pool` is what other streams do. -/
inductive Action
  | opened (r : Option ℕ)
  | completed (i : ℕ) (r : Option Bytes)
  | pause
  | resume
  | destroy
  | ret
  | pool (used : Option ℕ)

def step (decode : δ → Bytes → δ × JSString) (s : ReadStream δ) : Action → Option (ReadStream δ)
  | .opened r => if s.opening && s.stack.isEmpty then some (s.afterOpen r) else none
  | .completed i r =>
    match s.reads[i]? with
    | none => none
    | some read =>
      if s.stack.isEmpty && r.all (·.length ≤ read.length) then
        some ({ s with reads := s.reads.eraseIdx i }.afterRead decode r)
      else none
  | .pause => some { s with paused := true }
  | .resume => some (s.resume decode)
  | .destroy => some s.destroy
  | .ret =>
    match s.stack with
    | [] => none
    | f :: stack => some ({ s with stack := stack }.leave f)
  | .pool used => some { s with pool := used }

/-- `new ReadStream(path, options)`, where `options` may give a file that is open, a buffer size,
a range and an encoding. -/
def new (fd : Option ℕ) (bufferSize : ℕ) (range : Option Range) (decoder : Option δ) :
    ReadStream δ where
  fd := fd
  opening := fd.isNone
  readable := true
  paused := false
  reading := false
  bufferSize := bufferSize
  start := range.map (·.start)
  stop := range.bind (·.stop)
  firstRead := range.isSome
  pos := none
  buffer := none
  decoder := decoder
  openListeners := 0
  reads := []
  pool := none
  stack := []
  destroyed := false
  received := []
  given := []
  data := []
  late := []
  ended := false
  closes := 0

end ReadStream

end NodeJS.Fs
