import NodeJS.Buffer.Encoding
import NodeJS.Fs.ReadStream

/-! `fs.js`: `WriteStream` with its queue of calls, and the loop `writeAll`. -/
namespace NodeJS.Fs

/-- What the queue of a `WriteStream` holds: calls of `fs.open`, `fs.write` and `fs.close`. The data
of a write is what `fs.write` makes of it. -/
inductive Op
  | open
  | write (b : Bytes)
  | close
  deriving DecidableEq

/-- `calls` are the calls that `flush` has made and that have not called back, `openListeners` counts
the functions `close` that wait for `'open'`, and `running` says that `flush` is called when the
callback or the listeners that run now have returned. The last five fields record what happened:
`closes` counts the calls of `fs.close` with a descriptor, `destroyed` says that `destroy` was called
other than with descriptor 0, which it does not close, and `finished` that `flush` came to a close. -/
structure WriteStream where
  fd : Option ℕ
  writable : Bool
  drainable : Bool
  busy : Bool
  queue : List Op
  calls : List Op
  openListeners : ℕ
  running : Bool
  closes : ℕ
  closed : Bool
  drains : ℕ
  destroyed : Bool
  finished : Bool

namespace WriteStream

/-- The call of a method. Without a descriptor `fs.close` throws, and so does `fs.write` unless there
is nothing to write. -/
def call (s : WriteStream) : Op → WriteStream
  | .open => { s with calls := s.calls ++ [.open] }
  | .write b => if s.fd.isNone && !b.isEmpty then s else { s with calls := s.calls ++ [.write b] }
  | .close =>
    if s.fd.isNone then s
    else { s with calls := s.calls ++ [.close], closes := s.closes + 1, finished := true }

def flush (s : WriteStream) : WriteStream :=
  if s.busy then s
  else
    match s.queue with
    | [] => if s.drainable then { s with drains := s.drains + 1 } else s
    | op :: queue => { s with queue := queue, busy := true }.call op

/-- The function that `flush` passes to the method, called with `arguments[1]` unless there was an
error. -/
def called (s : WriteStream) : Op → Option ℕ → WriteStream
  | _, none => { s with busy := false, writable := false }
  | .close, some _ => { s with busy := false, closed := true }
  | .open, some fd =>
    { s with
      busy := false
      fd := some fd
      closes := s.closes + s.openListeners
      running := true }
  | .write _, some _ => { s with busy := false, running := true }

/-- `write`, which throws if the stream is not writable. -/
def write (s : WriteStream) (data : Chunk) (encoding : EncArg) : Option WriteStream :=
  if s.writable then
    some { s with
      drainable := true
      queue := s.queue ++ [Op.write (data.encode encoding.encoding)] }.flush
  else none

/-- What `end` does after it has written its argument. -/
def finish (s : WriteStream) : WriteStream :=
  { s with writable := false, queue := s.queue ++ [Op.close] }.flush

/-- `end`, which is also `destroySoon`. It throws if `write` does. -/
def «end» (s : WriteStream) : Option (Chunk × EncArg) → Option WriteStream
  | none => some s.finish
  | some (data, encoding) => (s.write data encoding).map finish

def destroy (s : WriteStream) : WriteStream :=
  let s := { s with writable := false }
  match s.fd with
  | some (_ + 1) => { s with closes := s.closes + 1, destroyed := true }
  | some 0 => { s with openListeners := s.openListeners + 1 }
  | none => { s with openListeners := s.openListeners + 1, destroyed := true }

/-- `write`, `end` and `destroy` are called by listeners and callbacks or from outside; `ret` is the
return of the callback of a write or of the listeners of `'open'`. -/
inductive Action
  | called (i : ℕ) (r : Option ℕ)
  | write (data : Chunk) (encoding : EncArg)
  | end (data : Option (Chunk × EncArg))
  | destroy
  | ret

/-- A call on a stream that is not writable throws and leaves the stream as it was. -/
def step (s : WriteStream) : Action → Option WriteStream
  | .called i r =>
    match s.calls[i]? with
    | none => none
    | some op => if s.running then none else some ({ s with calls := s.calls.eraseIdx i }.called op r)
  | .write data encoding => some ((s.write data encoding).getD s)
  | .end data => some ((s.end data).getD s)
  | .destroy => some s.destroy
  | .ret => if s.running then some { s with running := false }.flush else none

/-- `new WriteStream(path, options)`, where `options` may give a file that is open. -/
def new (fd : Option ℕ) : WriteStream :=
  let s : WriteStream :=
    { fd := fd
      writable := true
      drainable := false
      busy := false
      queue := []
      calls := []
      openListeners := 0
      running := false
      closes := 0
      closed := false
      drains := 0
      destroyed := false
      finished := false }
  if fd.isNone then { s with queue := [.open] }.flush else s

end WriteStream

/-- A file after `b` was written at a position. -/
def put (file : Bytes) (position : ℕ) (b : Bytes) : Bytes :=
  file.take position ++ List.replicate (position - file.length) 0 ++ b ++
    file.drop (position + b.length)

/-- `ExternalArray::kMaxLength`, which no buffer is longer than. -/
def kMaxLength : ℕ := 0x3fffffff

/-- A call of `writeAll` and the file with the offset of its descriptor. -/
structure WriteAll where
  offset : ℕ
  length : ℕ
  file : Bytes
  position : ℕ
  closed : Bool

namespace WriteAll

/-- The call of `writeAll` in `writeFile`, after `fs.open` with flag `'w'`. -/
def new (buffer : Bytes) : WriteAll := ⟨0, buffer.length, [], 0, false⟩

/-- The callback of `fs.write`, which has written a positive number of bytes unless there were none
to write. -/
def step (buffer : Bytes) (s : WriteAll) (written : ℕ) : Option WriteAll :=
  if s.closed = false ∧ written ≤ s.length ∧ (0 < s.length → 0 < written) then
    let b := ((buffer.drop s.offset).take s.length).take written
    let s := match getOffset (some s.offset) with
      | some p => { s with file := put s.file p b }
      | none => { s with file := put s.file s.position b, position := s.position + written }
    if written = s.length then some { s with closed := true }
    else some { s with offset := s.offset + written, length := s.length - written }
  else none

end WriteAll

end NodeJS.Fs
