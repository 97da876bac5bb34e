import NodeJS.Buffer.StringDecoder
import NodeJS.Fs.Position

/-! `fs.readFile`, `fs.writeFile` and their synchronous forms. Each is a machine that goes on when a
system call returns. -/
namespace NodeJS.Fs

/-- The answer to a system call, where `none` and `false` are failures; `tick` is a callback that
was passed to `process.nextTick`. -/
inductive Reply
  | opened (fd : Option ℕ)
  | read (n : Option ℕ)
  | wrote (n : Option ℕ)
  | closed (ok : Bool)
  | tick

/-- The file, and the offset of the descriptor. -/
structure Kernel where
  file : Bytes
  offset : ℕ

namespace Kernel

/-- `n` bytes are read. There may be more, but there are none only at the end of the file. -/
def read (k : Kernel) (length : ℕ) (position : Option ℕ) (n : ℕ) : Option (Bytes × Kernel) :=
  let place := position.getD k.offset
  let count := min length (k.file.length - place)
  if n ≤ count ∧ (0 < count → 0 < n) then
    some ((k.file.drop place).take n,
      if position.isSome then k else { k with offset := k.offset + n })
  else none

/-- The first `n` of these bytes are written, of which there is at least one. -/
def write (k : Kernel) (bytes : Bytes) (position : Option ℕ) (n : ℕ) : Option Kernel :=
  let place := position.getD k.offset
  if 0 < n ∧ n ≤ bytes.length then
    let file := k.file.take place ++ List.replicate (place - k.file.length) 0 ++ bytes.take n ++
      k.file.drop (place + n)
    some (if position.isSome then { k with file := file } else ⟨file, k.offset + n⟩)
  else none

/-- What a read at the offset of the descriptor returns. -/
theorem read_some {k k' : Kernel} {length n : ℕ} {bytes : Bytes}
    (h : k.read length none n = some (bytes, k')) :
    bytes = (k.file.drop k.offset).take n ∧ bytes.length = n ∧ n ≤ length ∧
      k' = { k with offset := k.offset + n } ∧ (n = 0 → length = 0 ∨ k.file.length ≤ k.offset) := by
  unfold read at h
  rw [Option.getD_none, if_neg (by decide : ¬ (none : Option ℕ).isSome)] at h
  dsimp only at h
  split_ifs at h with hcount
  obtain ⟨rfl, rfl⟩ := Prod.mk.inj (Option.some.inj h)
  refine ⟨rfl, ?_, by omega, rfl, by omega⟩
  rw [List.length_take, List.length_drop]
  omega

theorem read_enabled (k : Kernel) (length : ℕ) : ∃ n r, k.read length none n = some r := by
  refine ⟨min length (k.file.length - k.offset), _, if_pos ⟨?_, id⟩⟩
  exact Nat.le_refl _

theorem write_le {k k' : Kernel} {bytes : Bytes} {position : Option ℕ} {n : ℕ}
    (h : k.write bytes position n = some k') : 0 < n ∧ n ≤ bytes.length := by
  unfold write at h
  dsimp only at h
  split_ifs at h with hn
  · exact hn
  · exact hn

theorem write_enabled (k : Kernel) {bytes : Bytes} (h : bytes ≠ []) (position : Option ℕ) :
    ∃ n r, k.write bytes position n = some r :=
  ⟨bytes.length, _, if_pos ⟨List.length_pos_of_ne_nil h, Nat.le_refl _⟩⟩

end Kernel

/-- Whether the file was opened, how often it was closed, and how often it had been when the
function returned, threw or called back. -/
structure Account where
  opened : Bool
  closes : ℕ
  ends : List ℕ

def Account.new : Account := ⟨false, 0, []⟩

def Account.finish (a : Account) : Account := { a with ends := a.ends ++ [a.closes] }

/-- What is in a `Buffer`, whose length is at most `kMaxLength`. -/
abbrev Contents := { b : Bytes // b.length < 2 ^ 31 }

/-- `buffer.toString(encoding)`, if there is an encoding; `none` where it throws. -/
def encoded (toString : Option (Bytes → Option JSString)) (buffer : Bytes) : Option Data :=
  match toString with
  | none => some (.buffer buffer)
  | some f => (f buffer).map .string

section
variable (memory : ℕ → UInt8) (toString : Option (Bytes → Option JSString))

/-- A new buffer holds whatever was in memory. -/
def newBuffer (n : ℕ) : Bytes := (List.range n).map memory

def copyPiece (copied piece : Bytes × ℕ) : Except BufferCopyError (Bytes × ℕ) :=
  if piece.2 = 0 then .ok copied
  else (bufferCopy piece.1 copied.1 copied.2 0 piece.2).map fun buffer =>
    (buffer, copied.2 + piece.2)

def concat (nread : ℕ) (pieces : List (Bytes × ℕ)) : Except BufferCopyError Bytes :=
  (pieces.foldlM copyPiece (newBuffer memory nread, 0)).map Prod.fst

/-- Together, what is taken of each is this. -/
structure Pieces (pieces : List (Bytes × ℕ)) (bytes : Bytes) : Prop where
  fits : ∀ p ∈ pieces, 0 < p.2 ∧ p.2 ≤ p.1.length
  flatten : (pieces.map fun p => p.1.take p.2).flatten = bytes

theorem Pieces.snoc {pieces : List (Bytes × ℕ)} {bytes : Bytes} (h : Pieces pieces bytes)
    {b : Bytes} {n : ℕ} (hn : 0 < n) (hle : n ≤ b.length) :
    Pieces (pieces ++ [(b, n)]) (bytes ++ b.take n) := by
  refine ⟨fun p hp => ?_, ?_⟩
  · rcases List.mem_append.mp hp with hp | hp
    · exact h.fits p hp
    · obtain rfl := List.mem_singleton.mp hp
      exact ⟨hn, hle⟩
  · rw [List.map_append, List.flatten_append, h.flatten]
    exact congrArg (bytes ++ ·) (List.append_nil _)

/-- The pieces that are left are copied behind those that were. -/
theorem foldlM_copy (pieces : List (Bytes × ℕ)) {bytes : Bytes} (h : Pieces pieces bytes)
    (buffer : Bytes) (offset : ℕ) (hroom : offset + bytes.length = buffer.length) :
    pieces.foldlM copyPiece (buffer, offset) = .ok (buffer.take offset ++ bytes, buffer.length) := by
  induction pieces generalizing bytes buffer offset with
  | nil =>
    obtain rfl : [] = bytes := h.flatten
    have hoffset : offset = buffer.length := hroom
    rw [List.append_nil, hoffset, List.take_length]
    rfl
  | cons p pieces ih =>
    obtain ⟨b, n⟩ := p
    obtain ⟨hpos, hle⟩ : 0 < n ∧ n ≤ b.length := h.fits (b, n) List.mem_cons_self
    have hrest : Pieces pieces (pieces.map fun p => p.1.take p.2).flatten :=
      ⟨fun p hp => h.fits p (List.mem_cons_of_mem _ hp), rfl⟩
    obtain rfl : b.take n ++ (pieces.map fun p => p.1.take p.2).flatten = bytes := h.flatten
    generalize (pieces.map fun p => p.1.take p.2).flatten = rest at hrest hroom
    rw [List.length_append, List.length_take_of_le hle] at hroom
    have hcopy : copyPiece (buffer, offset) (b, n) =
        .ok (buffer.take offset ++ b.take n ++ buffer.drop (offset + n), offset + n) := by
      rw [copyPiece, if_neg (by dsimp only; omega),
        StringDecoder.bufferCopy_fit (by omega) (Nat.zero_le _) hle (by dsimp only; omega)]
      rfl
    have hlength : (buffer.take offset ++ b.take n ++ buffer.drop (offset + n)).length =
        buffer.length := by
      simp only [List.length_append, List.length_take, List.length_drop]
      omega
    have htake : (buffer.take offset ++ b.take n ++ buffer.drop (offset + n)).take (offset + n) =
        buffer.take offset ++ b.take n := by
      refine List.take_left' ?_
      simp only [List.length_append, List.length_take]
      omega
    have hnext := ih hrest _ (offset + n) (by rw [hlength]; omega)
    rw [htake, hlength] at hnext
    rw [List.foldlM_cons, hcopy, ← List.append_assoc (buffer.take offset)]
    exact hnext

/-- The copies make up the whole. -/
theorem concat_pieces {pieces : List (Bytes × ℕ)} {bytes : Bytes}
    (h : Pieces pieces bytes) : concat memory bytes.length pieces = .ok bytes := by
  have hlength : (newBuffer memory bytes.length).length = bytes.length := by
    simp [newBuffer]
  unfold concat
  rw [foldlM_copy pieces h _ 0 (by rw [hlength, Nat.zero_add])]
  rfl

/-! ### `readFileSync` -/

inductive SyncPhase
  | opening
  | calling (t : Transfer)
  | closing
  | finished

/-- `buffers` are those that were filled, each with its `_bytesRead`. `outcome` is what was
returned; it is `none` if there was an exception. -/
structure ReadFileSync where
  phase : SyncPhase
  kernel : Kernel
  fd : ℕ
  buffers : List (Bytes × ℕ)
  buffer : Bytes
  nread : ℕ
  lastRead : ℕ
  outcome : Option (Option Data)
  account : Account

namespace ReadFileSync

def new (file : Bytes) : ReadFileSync where
  phase := .opening
  kernel := ⟨file, 0⟩
  fd := 0
  buffers := []
  buffer := newBuffer memory 4048
  nread := 0
  lastRead := 0
  outcome := none
  account := .new

def finish (s : ReadFileSync) (outcome : Option Data) : ReadFileSync :=
  { s with phase := .finished, outcome := some outcome, account := s.account.finish }

def await (s : ReadFileSync) : Except TransferError (Option Transfer) → ReadFileSync
  | .ok (some t) => { s with phase := .calling t }
  | _ => s.finish none

/-- `fs.readSync(fd, buffer, 0, buffer.length, null)` -/
def call (s : ReadFileSync) (buffer : Bytes) : ReadFileSync :=
  { s with buffer := buffer }.await
    (Calls.readSync s.fd (.buffer buffer.length 0 buffer.length) none)

/-- `if (lastRead) { .. }` -/
def push (s : ReadFileSync) : ReadFileSync :=
  if s.lastRead ≠ 0 then
    { s with nread := s.nread + s.lastRead, buffers := s.buffers ++ [(s.buffer, s.lastRead)] }
  else s

def round (s : ReadFileSync) : ReadFileSync := s.push.call (newBuffer memory 4048)

@[simp] theorem push_fd (s : ReadFileSync) : s.push.fd = s.fd := by
  unfold push
  split_ifs <;> rfl

@[simp] theorem push_kernel (s : ReadFileSync) : s.push.kernel = s.kernel := by
  unfold push
  split_ifs <;> rfl

@[simp] theorem push_account (s : ReadFileSync) : s.push.account = s.account := by
  unfold push
  split_ifs <;> rfl

/-- The call does not throw. -/
theorem round_eq {s : ReadFileSync} (hfd : s.fd < 2 ^ 31) : s.round memory =
    { s.push with
      buffer := newBuffer memory 4048, phase := .calling ⟨s.push.fd, 0, 4048, none⟩ } := by
  have hlength : (newBuffer memory 4048).length = 4048 := by simp [newBuffer]
  have hfd' : s.push.fd < 2 ^ 31 := by
    rw [push_fd]
    exact hfd
  unfold round call
  generalize newBuffer memory 4048 = buffer at hlength ⊢
  rw [hlength, Calls.readSync_ok hfd' (by decide) (by decide)]
  rfl

/-- What follows the call of `closeSync`. -/
def result (s : ReadFileSync) : Option Data :=
  match s.buffers with
  | [] => encoded toString (newBuffer memory 0)
  | [(b, n)] => encoded toString (b.take n)
  | pieces =>
    match concat memory s.nread pieces with
    | .ok buffer => encoded toString buffer
    | .error _ => none

def step (s : ReadFileSync) (r : Reply) : Option ReadFileSync :=
  match s.phase, r with
  | .opening, .opened none => some (s.finish none)
  | .opening, .opened (some fd) =>
    if fd < 2 ^ 31 then
      some ({ s with fd := fd, account := { s.account with opened := true } }.round memory)
    else none
  | .calling _, .read none => some (s.finish none)
  | .calling t, .read (some n) =>
    (s.kernel.read t.length (t.position.map Int.toNat) n).map fun (bytes, kernel) =>
      let s := { s with kernel := kernel, lastRead := n, buffer := bytes ++ s.buffer.drop n }
      if s.lastRead > 0 then s.round memory
      else { s with phase := .closing, account := { s.account with closes := s.account.closes + 1 } }
  | .closing, .closed true => some (s.finish (s.result memory toString))
  | .closing, .closed false => some (s.finish none)
  | _, _ => none

inductive Effect (s : ReadFileSync) : Reply → ReadFileSync → Prop
  | openFailed (phase : s.phase = .opening) : Effect s (.opened none) (s.finish none)
  | opened {fd : ℕ} (phase : s.phase = .opening) (hfd : fd < 2 ^ 31) :
      Effect s (.opened (some fd))
        ({ s with fd := fd, account := { s.account with opened := true } }.round memory)
  | readFailed {t : Transfer} (phase : s.phase = .calling t) : Effect s (.read none) (s.finish none)
  | read {t : Transfer} {n : ℕ} {bytes : Bytes} {kernel : Kernel} (phase : s.phase = .calling t)
      (hread : s.kernel.read t.length (t.position.map Int.toNat) n = some (bytes, kernel))
      (hn : 0 < n) :
      Effect s (.read (some n))
        ({ s with
          kernel := kernel, lastRead := n, buffer := bytes ++ s.buffer.drop n }.round memory)
  | last {t : Transfer} {bytes : Bytes} {kernel : Kernel} (phase : s.phase = .calling t)
      (hread : s.kernel.read t.length (t.position.map Int.toNat) 0 = some (bytes, kernel)) :
      Effect s (.read (some 0))
        { s with
          phase := .closing
          kernel := kernel
          lastRead := 0
          buffer := bytes ++ s.buffer.drop 0
          account := { s.account with closes := s.account.closes + 1 } }
  | closed (phase : s.phase = .closing) :
      Effect s (.closed true) (s.finish (s.result memory toString))
  | closeFailed (phase : s.phase = .closing) : Effect s (.closed false) (s.finish none)

variable {memory toString} in
theorem step_effect {s s' : ReadFileSync} {r : Reply} (h : s.step memory toString r = some s') :
    Effect memory toString s r s' := by
  unfold step at h
  split at h
  · rename_i phase
    obtain rfl := Option.some.inj h
    exact .openFailed phase
  · rename_i fd phase
    split_ifs at h with hfd
    replace h := Option.some.inj h
    subst h
    exact .opened phase hfd
  · rename_i t phase
    obtain rfl := Option.some.inj h
    exact .readFailed phase
  · rename_i t n phase
    obtain ⟨⟨bytes, kernel⟩, hread, heq⟩ := Option.map_eq_some_iff.mp h
    dsimp only at heq
    split_ifs at heq with hn
    · subst heq
      exact .read phase hread hn
    · subst heq
      obtain rfl : n = 0 := Nat.eq_zero_of_not_pos hn
      exact .last phase hread
  · rename_i phase
    obtain rfl := Option.some.inj h
    exact .closed phase
  · rename_i phase
    obtain rfl := Option.some.inj h
    exact .closeFailed phase
  · cases h

end ReadFileSync

/-! ### `writeFileSync` -/

/-- `data` is the buffer or what `new Buffer(data, encoding)` makes of a string, unless that throws.
`writes` records the position and the bytes of each write. -/
structure WriteFileSync where
  phase : SyncPhase
  kernel : Kernel
  fd : ℕ
  data : Option Contents
  written : ℕ
  writes : List (Option ℕ × Bytes)
  outcome : Option Bool
  account : Account

namespace WriteFileSync

def new (file : Bytes) (data : Option Contents) : WriteFileSync where
  phase := .opening
  kernel := ⟨file, 0⟩
  fd := 0
  data := data
  written := 0
  writes := []
  outcome := none
  account := .new

/-- The file has been opened with `O_TRUNC`. -/
def opened (s : WriteFileSync) (fd : ℕ) : WriteFileSync :=
  { s with fd := fd, kernel := ⟨[], 0⟩, account := { s.account with opened := true } }

def finish (s : WriteFileSync) (ok : Bool) : WriteFileSync :=
  { s with phase := .finished, outcome := some ok, account := s.account.finish }

def await (s : WriteFileSync) : Except TransferError (Option Transfer) → WriteFileSync
  | .ok (some t) => { s with phase := .calling t }
  | _ => s.finish false

/-- The loop up to the next call of `writeSync`, or what follows it. -/
def round (s : WriteFileSync) (data : Bytes) : WriteFileSync :=
  if s.written < data.length then
    s.await (Calls.writeSync s.fd (.buffer data.length s.written (data.length - s.written : ℕ))
      (some s.written))
  else { s with phase := .closing, account := { s.account with closes := s.account.closes + 1 } }

def step (s : WriteFileSync) (r : Reply) : Option WriteFileSync :=
  match s.phase, r with
  | .opening, .opened none => some (s.finish false)
  | .opening, .opened (some fd) =>
    if fd < 2 ^ 31 then
      match s.data with
      | none => some ((s.opened fd).finish false)
      | some data => some ((s.opened fd).round data.val)
    else none
  | .calling _, .wrote none => some (s.finish false)
  | .calling t, .wrote (some n) =>
    s.data.bind fun data =>
      let bytes := (data.val.drop t.offset).take t.length
      (s.kernel.write bytes (t.position.map Int.toNat) n).map fun kernel =>
        { s with
          kernel := kernel
          written := s.written + n
          writes := s.writes ++ [(t.position.map Int.toNat, bytes.take n)] }.round data.val
  | .closing, .closed ok => some (s.finish ok)
  | _, _ => none

inductive Effect (s : WriteFileSync) : Reply → WriteFileSync → Prop
  | openFailed (phase : s.phase = .opening) : Effect s (.opened none) (s.finish false)
  | noBuffer {fd : ℕ} (phase : s.phase = .opening) (hdata : s.data = none) :
      Effect s (.opened (some fd)) ((s.opened fd).finish false)
  | opened {fd : ℕ} {data : Contents} (phase : s.phase = .opening) (hfd : fd < 2 ^ 31)
      (hdata : s.data = some data) :
      Effect s (.opened (some fd)) ((s.opened fd).round data.val)
  | writeFailed {t : Transfer} (phase : s.phase = .calling t) :
      Effect s (.wrote none) (s.finish false)
  | wrote {t : Transfer} {n : ℕ} {data : Contents} {kernel : Kernel} (phase : s.phase = .calling t)
      (hdata : s.data = some data)
      (hwrite : s.kernel.write ((data.val.drop t.offset).take t.length)
        (t.position.map Int.toNat) n = some kernel) :
      Effect s (.wrote (some n))
        ({ s with
          kernel := kernel
          written := s.written + n
          writes := s.writes ++ [(t.position.map Int.toNat,
            ((data.val.drop t.offset).take t.length).take n)] }.round data.val)
  | closed {ok : Bool} (phase : s.phase = .closing) : Effect s (.closed ok) (s.finish ok)

theorem step_effect {s s' : WriteFileSync} {r : Reply} (h : s.step r = some s') :
    Effect s r s' := by
  unfold step at h
  split at h
  · rename_i phase
    obtain rfl := Option.some.inj h
    exact .openFailed phase
  · rename_i fd phase
    split_ifs at h with hfd
    split at h
    · rename_i hdata
      obtain rfl := Option.some.inj h
      exact .noBuffer phase hdata
    · rename_i data hdata
      obtain rfl := Option.some.inj h
      exact .opened phase hfd hdata
  · rename_i t phase
    obtain rfl := Option.some.inj h
    exact .writeFailed phase
  · rename_i t n phase
    obtain ⟨data, hdata, h⟩ := Option.bind_eq_some_iff.mp h
    obtain ⟨kernel, hwrite, rfl⟩ := Option.map_eq_some_iff.mp h
    exact .wrote phase hdata hwrite
  · rename_i ok phase
    obtain rfl := Option.some.inj h
    exact .closed phase
  · cases h

end WriteFileSync

/-! ### `writeFile` -/

/-- `closing` has whether `writeAll` failed. -/
inductive WritePhase
  | opening
  | calling (t : Transfer)
  | ticking
  | closing (writeErr : Bool)
  | finished

/-- `offset` and `length` are the parameters of `writeAll`, and `calls` records whether the callback
was called without an error. -/
structure WriteFile where
  phase : WritePhase
  kernel : Kernel
  fd : ℕ
  data : Option Contents
  offset : ℕ
  length : ℕ
  writes : List (Option ℕ × Bytes)
  calls : List Bool
  account : Account

namespace WriteFile

def new (file : Bytes) (data : Option Contents) : WriteFile where
  phase := .opening
  kernel := ⟨file, 0⟩
  fd := 0
  data := data
  offset := 0
  length := 0
  writes := []
  calls := []
  account := .new

/-- The file has been opened with `O_TRUNC`. -/
def opened (s : WriteFile) (fd : ℕ) : WriteFile :=
  { s with fd := fd, kernel := ⟨[], 0⟩, account := { s.account with opened := true } }

def callback (s : WriteFile) (ok : Bool) : WriteFile :=
  { s with phase := .finished, calls := s.calls ++ [ok], account := s.account.finish }

def throw (s : WriteFile) : WriteFile := { s with phase := .finished, account := s.account.finish }

def close (s : WriteFile) (writeErr : Bool) : WriteFile :=
  { s with
    phase := .closing writeErr, account := { s.account with closes := s.account.closes + 1 } }

/-- What the call of `fs.write` comes to. -/
def await (s : WriteFile) : Except TransferError (Option Transfer) → WriteFile
  | .ok none => { s with phase := .ticking }
  | .ok (some t) => { s with phase := .calling t }
  | .error _ => s.throw

/-- `writeAll` up to its call of `fs.write`. -/
def writeAll (s : WriteFile) (buffer : Bytes) (offset length : ℕ) : WriteFile :=
  { s with offset := offset, length := length }.await
    (Calls.write s.fd (.buffer buffer.length offset length) (some offset))

/-- The callback of `fs.write`, where nothing went wrong. -/
def afterWrite (s : WriteFile) (buffer : Bytes) (written : ℕ) : WriteFile :=
  if written = s.length then s.close false
  else s.writeAll buffer (s.offset + written) (s.length - written)

def step (s : WriteFile) (r : Reply) : Option WriteFile :=
  match s.phase, r with
  | .opening, .opened none => some (s.callback false)
  | .opening, .opened (some fd) =>
    if fd < 2 ^ 31 then
      match s.data with
      | none => some (s.opened fd).throw
      | some buffer => some ((s.opened fd).writeAll buffer.val 0 buffer.val.length)
    else none
  | .ticking, .tick => s.data.map fun buffer => s.afterWrite buffer.val 0
  | .calling _, .wrote none => some (s.close true)
  | .calling t, .wrote (some n) =>
    s.data.bind fun buffer =>
      let bytes := (buffer.val.drop t.offset).take t.length
      (s.kernel.write bytes (t.position.map Int.toNat) n).map fun kernel =>
        { s with
          kernel := kernel
          writes := s.writes ++ [(t.position.map Int.toNat, bytes.take n)] }.afterWrite buffer.val n
  | .closing writeErr, .closed ok => some (s.callback (!writeErr && ok))
  | _, _ => none

inductive Effect (s : WriteFile) : Reply → WriteFile → Prop
  | openFailed (phase : s.phase = .opening) : Effect s (.opened none) (s.callback false)
  | noBuffer {fd : ℕ} (phase : s.phase = .opening) (hdata : s.data = none) :
      Effect s (.opened (some fd)) (s.opened fd).throw
  | opened {fd : ℕ} {buffer : Contents} (phase : s.phase = .opening) (hfd : fd < 2 ^ 31)
      (hdata : s.data = some buffer) :
      Effect s (.opened (some fd)) ((s.opened fd).writeAll buffer.val 0 buffer.val.length)
  | ticked {buffer : Contents} (phase : s.phase = .ticking) (hdata : s.data = some buffer) :
      Effect s .tick (s.afterWrite buffer.val 0)
  | writeFailed {t : Transfer} (phase : s.phase = .calling t) : Effect s (.wrote none) (s.close true)
  | wrote {t : Transfer} {n : ℕ} {buffer : Contents} {kernel : Kernel}
      (phase : s.phase = .calling t) (hdata : s.data = some buffer)
      (hwrite : s.kernel.write ((buffer.val.drop t.offset).take t.length)
        (t.position.map Int.toNat) n = some kernel) :
      Effect s (.wrote (some n))
        ({ s with
          kernel := kernel
          writes := s.writes ++ [(t.position.map Int.toNat,
            ((buffer.val.drop t.offset).take t.length).take n)] }.afterWrite buffer.val n)
  | closed {writeErr ok : Bool} (phase : s.phase = .closing writeErr) :
      Effect s (.closed ok) (s.callback (!writeErr && ok))

theorem step_effect {s s' : WriteFile} {r : Reply} (h : s.step r = some s') : Effect s r s' := by
  unfold step at h
  split at h
  · rename_i phase
    obtain rfl := Option.some.inj h
    exact .openFailed phase
  · rename_i fd phase
    split_ifs at h with hfd
    split at h
    · rename_i hdata
      obtain rfl := Option.some.inj h
      exact .noBuffer phase hdata
    · rename_i buffer hdata
      obtain rfl := Option.some.inj h
      exact .opened phase hfd hdata
  · rename_i phase
    obtain ⟨buffer, hdata, rfl⟩ := Option.map_eq_some_iff.mp h
    exact .ticked phase hdata
  · rename_i t phase
    obtain rfl := Option.some.inj h
    exact .writeFailed phase
  · rename_i t n phase
    obtain ⟨buffer, hdata, h⟩ := Option.bind_eq_some_iff.mp h
    obtain ⟨kernel, hwrite, rfl⟩ := Option.map_eq_some_iff.mp h
    exact .wrote phase hdata hwrite
  · rename_i writeErr ok phase
    obtain rfl := Option.some.inj h
    exact .closed phase
  · cases h

end WriteFile

end
end NodeJS.Fs
