import NodeJS.Net.Pool

/-! `net.js`: the write half of `Socket`. What the kernel answers is given by an oracle, asked
once for each system call. -/
namespace NodeJS.Net

/-- Outcome of `write(2)` or `sendmsg(2)`: a count, `EAGAIN` or `EINTR`, or another error. -/
inductive Sys
  | wrote (n : ℕ)
  | again
  | failed
  deriving DecidableEq

structure Kernel where
  write : ℕ → ℕ → Sys
  shutdown : ℕ → Bool

inductive Data
  | str (s : JSString)
  | buf (b : Buf)
  deriving DecidableEq

def Data.length : Data → ℕ
  | .str s => s.length
  | .buf b => b.length

/-- A callback given to `write`, or the function made of two of them. That one looks for the
first callback in the global object when it is called, so it throws. -/
inductive Callback
  | user (id : ℕ)
  | merged
  deriving DecidableEq

/-- One position of `_writeQueue`, `_writeQueueEncoding` and `_writeQueueCallbacks`. -/
structure Entry where
  data : Data
  encoding : EncArg
  cb : Option Callback

/-- Exceptions that leave a method of `Socket`. -/
inductive Exc
  | notWritable
  | ended
  | assertion
  | write (e : Base64.WriteError)
  | callback
  deriving DecidableEq

/-- A `Socket`. `endOfFile` says that `END_OF_FILE` stands at the end of `_writeQueue`, where
nothing can follow it. The last four fields are not of the object: they record what the kernel
has accepted, the descriptors passed, the callbacks called and the number of system calls. -/
structure Socket where
  unix : Bool
  readable : Bool
  writable : Bool
  connecting : Bool
  destroyed : Bool
  destroyOnDrain : Bool
  queue : List Entry
  endOfFile : Bool
  queueFD : List (Option ℕ)
  bufferSize : ℤ
  wire : Bytes
  passed : List ℕ
  called : List ℕ
  calls : ℕ

/-- A socket after `connect` was called, or after `open`. -/
def Socket.new (unix connecting : Bool) : Socket where
  unix := unix
  readable := !connecting
  writable := true
  connecting := connecting
  destroyed := false
  destroyOnDrain := false
  queue := []
  endOfFile := false
  queueFD := []
  bufferSize := 0
  wire := []
  passed := []
  called := []
  calls := 0

structure State where
  pool : Pool
  sock : Socket

def Socket.unshift (s : Socket) (e : Entry) : Socket :=
  { s with queue := e :: s.queue, bufferSize := s.bufferSize + e.data.length }

/-- The end of `_writeOut`, after a write that took `bytesWritten` bytes only. -/
def Socket.unshiftLeft (s : Socket) (leftOver : Buf) (cb : Option Callback) (bytesWritten : ℕ)
    (fd : Option ℕ) : Socket :=
  let s := s.unshift ⟨.buf leftOver, none, cb⟩
  if bytesWritten = 0 then { s with queueFD := fd :: s.queueFD } else s

def destroy (n : State) : State :=
  { n with sock :=
      { n.sock with
        queue := []
        endOfFile := false
        queueFD := []
        bufferSize := 0
        readable := false
        writable := false
        destroyed := true } }

/-- `_writeImpl` with the bounds checks of the binding. `none` is an exception; the count is
null when `sendMsg` would block. -/
def writeImpl (kernel : Kernel) (n : State) (buffer : Buf) (off len : ℕ) (fd : Option ℕ) :
    Option (Option ℕ) × State :=
  let noData := off ≥ buffer.length ∨ len = 0
  if n.sock.unix ∧ fd.any (· ≠ 0) ∧ noData then (none, n)
  else if off ≥ buffer.length ∨ off + len > buffer.length then (none, n)
  else
    let sys := kernel.write n.sock.calls len
    let n := { n with sock := { n.sock with calls := n.sock.calls + 1 } }
    match sys with
    | .failed => (none, n)
    | .again => (some (if n.sock.unix then none else some 0), n)
    | .wrote count =>
      let count := min count len
      let passed := if n.sock.unix then n.sock.passed ++ fd.toList else n.sock.passed
      let wire := n.sock.wire ++ buffer.read n.pool off count
      (some (some count), { n with sock := { n.sock with wire := wire, passed := passed } })

/-- `if (cb) cb();` -/
def runCallback (n : State) : Option Callback → Except Exc Unit × State
  | none => (.ok (), n)
  | some (.user id) => (.ok (), { n with sock := { n.sock with called := n.sock.called ++ [id] } })
  | some .merged => (.error .callback, n)

/-- Second half of `_writeOut`: hand a part of a Buffer to the kernel and keep what is left. -/
def send (kernel : Kernel) (n : State) (buffer : Buf) (off len : ℕ) (fd : Option ℕ)
    (cb : Option Callback) (queuedData : Bool) : Except Exc Bool × State :=
  match writeImpl kernel n buffer off len fd with
  | (none, n) => (.ok false, destroy n)
  | (some bytesWritten, n) =>
    if bytesWritten = some len then
      let n := if buffer = .pool n.pool.current then
          { n with pool := { n.pool with used := n.pool.used - len } }
        else n
      if queuedData then (.ok false, n)
      else
        let (r, n) := runCallback n cb
        (r.map fun _ => true, n)
    else
      let bytesWritten := bytesWritten.getD 0
      let leftOver := buffer.slice (off + bytesWritten) (off + len)
      (.ok false, { n with sock := n.sock.unshiftLeft leftOver cb bytesWritten fd })

def writeOut (kernel : Kernel) (n : State) (data : Data) (encoding : EncArg) (fd : Option ℕ)
    (cb : Option Callback) : Except Exc Bool × State :=
  if n.sock.writable = false then (.error .notWritable, n) else
  match data with
  | .buf buffer => send kernel n buffer 0 buffer.length fd cb false
  | .str data =>
    let pool := n.pool.ensure
    match bufferWrite kPoolSize data pool.used encoding.encoding with
    | .error e => (.error (.write e), { n with pool := pool })
    | .ok w =>
      let off := pool.used
      let pool := pool.store w.stored
      if data.length > 0 ∧ w.written = 0 then (.error .assertion, { n with pool := pool }) else
      let pool := { pool with used := pool.used + w.written }
      if w.charsWritten ≠ data.length then
        let rest := data.drop w.charsWritten
        let sock := n.sock.unshift ⟨.str rest, encoding, cb⟩
        send kernel ⟨pool, sock⟩ (.pool pool.current) off w.written fd cb true
      else send kernel ⟨pool, n.sock⟩ (.pool pool.current) off w.written fd cb false

/-- The callback kept for a string that is concatenated onto another one. -/
def mergeCallbacks : Option Callback → Option Callback → Option Callback
  | last, none => last
  | none, some cb => some cb
  | some _, some _ => some .merged

/-- The queue after `write` has found one: a string is concatenated onto a last string with the
same encoding name. -/
def coalesce (queue : List Entry) (data : Data) (encoding : EncArg) (cb : Option Callback) :
    List Entry :=
  match queue.getLast?, data with
  | some ⟨.str last, e, lastCb⟩, .str str =>
    if e = encoding then
      queue.dropLast ++ [⟨.str (last ++ str), e, mergeCallbacks lastCb cb⟩]
    else queue ++ [⟨data, encoding, cb⟩]
  | _, _ => queue ++ [⟨data, encoding, cb⟩]

def enqueue (s : Socket) (data : Data) (encoding : EncArg) (fd : Option ℕ)
    (cb : Option Callback) : Socket :=
  { s with
    queue := coalesce s.queue data encoding cb
    bufferSize := s.bufferSize + data.length
    queueFD := s.queueFD ++ (fd.map some).toList }

def write (kernel : Kernel) (n : State) (data : Data) (encoding : EncArg) (fd : Option ℕ)
    (cb : Option Callback) : Except Exc Bool × State :=
  if n.sock.connecting ∨ n.sock.queue ≠ [] ∨ n.sock.endOfFile then
    if n.sock.endOfFile then (.error .ended, n)
    else (.ok false, { n with sock := enqueue n.sock data encoding fd cb })
  else writeOut kernel n data encoding fd cb

def shutdown (kernel : Kernel) (n : State) : Except Exc Unit × State :=
  if n.sock.writable = false then (.error .notWritable, n) else
  let n := { n with sock := { n.sock with writable := false } }
  if n.sock.readable then
    let ok := kernel.shutdown n.sock.calls
    let n := { n with sock := { n.sock with calls := n.sock.calls + 1 } }
    (.ok (), if ok then n else destroy n)
  else (.ok (), destroy n)

/-- The loop of `flush`. A round that goes on has taken one entry out of the queue, so a fuel of
one more than its length is enough. -/
def flushRounds (kernel : Kernel) : ℕ → State → Except Exc Bool × State
  | 0, n => (.ok true, n)
  | fuel + 1, n =>
    match n.sock.queue with
    | [] =>
      if n.sock.endOfFile then
        let n := { n with sock := { n.sock with endOfFile := false } }
        let (r, n) := shutdown kernel n
        (r.map fun _ => true, n)
      else (.ok true, n)
    | e :: queue =>
      let fd := n.sock.queueFD.head?.join
      let sock := { n.sock with
        queue := queue
        queueFD := n.sock.queueFD.tail
        bufferSize := n.sock.bufferSize - e.data.length }
      match writeOut kernel { n with sock := sock } e.data e.encoding fd e.cb with
      | (.ok true, n) => flushRounds kernel fuel n
      | r => r

def flush (kernel : Kernel) (n : State) : Except Exc Bool × State :=
  flushRounds kernel (n.sock.queue.length + 1) n

/-- `_onConnect` up to the `'connect'` event, without an error on the socket. -/
def onConnect (n : State) : State :=
  { n with sock := { n.sock with connecting := false, readable := true, writable := true } }

/-- `if (data)`: an empty string is as good as none. -/
def given : Option (Data × EncArg) → Option (Data × EncArg)
  | some (.str [], _) => none
  | data => data

def «end» (kernel : Kernel) (n : State) (data : Option (Data × EncArg)) : Except Exc Unit × State :=
  if n.sock.writable ∧ ¬ n.sock.endOfFile then
    let (r, n) := match given data with
      | some (data, encoding) => write kernel n data encoding none none
      | none => (.ok true, n)
    match r with
    | .error e => (.error e, n)
    | .ok _ =>
      let n := { n with sock := { n.sock with endOfFile := true } }
      if n.sock.connecting then (.ok (), n)
      else
        let (r, n) := flush kernel n
        (r.map fun _ => (), n)
  else (.ok (), n)

def destroySoon (kernel : Kernel) (n : State) : Except Exc Unit × State :=
  match flush kernel n with
  | (.error e, n) => (.error e, n)
  | (.ok true, n) => (.ok (), destroy n)
  | (.ok false, n) => (.ok (), { n with sock := { n.sock with destroyOnDrain := true } })

/-! ### A socket that is not writable any more -/

theorem flushRounds_unwritable (kernel : Kernel) (fuel : ℕ) {n : State}
    (h : n.sock.writable = false) : (flushRounds kernel fuel n).2.sock.writable = false := by
  cases fuel with
  | zero => exact h
  | succ fuel =>
    unfold flushRounds
    split
    · split_ifs
      · unfold shutdown
        dsimp only
        rw [if_pos h]
        exact h
      · exact h
    · unfold writeOut
      dsimp only
      rw [if_pos h]
      exact h

end NodeJS.Net
