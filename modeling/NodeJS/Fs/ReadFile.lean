import NodeJS.Fs.WholeFile

/-! `fs.readFile`: a `ReadStream` and its listeners. -/
namespace NodeJS.Fs

/-- The stream and its listeners. `closed` counts the calls of `fs.close` that have called back, and
`calls` records what the callback was passed, if that was no error. -/
structure ReadFile where
  stream : ReadStream Empty
  kernel : Kernel
  buffers : List Bytes
  nread : ℕ
  calls : List (Option Data)
  closed : ℕ
  opened : Bool
  ends : List ℕ

namespace ReadFile
variable (memory : ℕ → UInt8) (toString : Option (Bytes → Option JSString))

def noDecoder : Empty → Bytes → Empty × JSString := nofun

def new (file : Bytes) : ReadFile where
  stream := .new none (64 * 1024) none none
  kernel := ⟨file, 0⟩
  buffers := []
  nread := 0
  calls := []
  closed := 0
  opened := false
  ends := []

def callback (s : ReadFile) (r : Option Data) : ReadFile :=
  { s with calls := s.calls ++ [r], ends := s.ends ++ [s.stream.closes] }

def onData (s : ReadFile) (chunk : Bytes) : ReadFile :=
  { s with buffers := s.buffers ++ [chunk], nread := s.nread + chunk.length }

def onError (s : ReadFile) : ReadFile :=
  let s := s.callback none
  { s with stream := s.stream.destroy }

def copied (s : ReadFile) : Except BufferCopyError Bytes :=
  match s.buffers with
  | [] => .ok (newBuffer memory 0)
  | [b] => .ok b
  | buffers => concat memory s.nread (buffers.map fun b => (b, b.length))

def onEnd (s : ReadFile) : Except BufferCopyError ReadFile :=
  (s.copied memory).map fun buffer => s.callback (encoded toString buffer)

/-- The listeners are called for what the stream has just emitted. They return unless there is an
exception. -/
def listen (s : ReadFile) : ReadFile :=
  match s.stream.stack with
  | [] => s
  | f :: stack =>
    let returned : Except BufferCopyError ReadFile := match f with
      | .read => match s.stream.data.getLast? with
        | some (.buffer chunk) => .ok (s.onData chunk)
        | _ => .ok s
      | .ended => s.onEnd memory toString
      | .failed => .ok s.onError
      | _ => .ok s
    match returned with
    | .ok s => { s with stream := { s.stream with stack := stack }.leave f }
    | .error _ => { s with stream := { s.stream with stack := stack } }

/-- A call returns; `pool` is what other streams have made of the pool until then. -/
structure Turn where
  pool : Option ℕ
  reply : Reply

def step (s : ReadFile) (t : Turn) : Option ReadFile :=
  let stream : ReadStream Empty := { s.stream with pool := t.pool }
  match t.reply with
  | .opened fd =>
    (stream.step noDecoder (.opened fd)).map fun stream =>
      { s with stream := stream, opened := fd.isSome }.listen memory toString
  | .read none =>
    (stream.step noDecoder (.completed 0 none)).map fun stream =>
      { s with stream := stream }.listen memory toString
  | .read (some n) =>
    match s.stream.reads with
    | [] => none
    | r :: _ =>
      (s.kernel.read r.length (getOffset r.position) n).bind fun (bytes, kernel) =>
        (stream.step noDecoder (.completed 0 (some bytes))).map fun stream =>
          { s with stream := stream, kernel := kernel }.listen memory toString
  | .closed ok =>
    if s.closed < s.stream.closes then
      let s := { s with closed := s.closed + 1 }
      some (if ok then s else s.onError)
    else none
  | _ => none

end ReadFile

/-! ### The stream -/

namespace ReadStream
variable {s : ReadStream Empty}

/-- A stream of a whole file that nothing has paused or destroyed. -/
structure Untouched (s : ReadStream Empty) : Prop where
  readable : s.readable = true
  paused : s.paused = false
  start : s.start = none
  stop : s.stop = none
  pos : s.pos = none
  bufferSize : 0 < s.bufferSize
  stack : s.stack = []
  listeners : s.openListeners = 0
  closes : s.closes = 0

/-- It waits for `fs.open`. -/
structure Opening (s : ReadStream Empty) : Prop extends s.Untouched where
  opening : s.opening = true
  fd : s.fd = none
  reading : s.reading = false
  reads : s.reads = []

structure Reading (fd length : ℕ) (s : ReadStream Empty) : Prop extends s.Untouched where
  opening : s.opening = false
  fd : s.fd = some fd
  reading : s.reading = true
  reads : s.reads = [⟨length, none⟩]
  length : 0 < length

/-- It waits for nothing but `fs.close`. -/
structure Over (fd : Option ℕ) (closes : ℕ) (s : ReadStream Empty) : Prop where
  opening : s.opening = false
  fd : s.fd = fd
  reads : s.reads = []
  stack : s.stack = []
  closes : s.closes = closes

/-- How often `destroy` calls `fs.close`. -/
def closings : Option ℕ → ℕ
  | some (_ + 1) => 1
  | _ => 0

theorem toRead_pos (hstop : s.stop = none) (hsize : 0 < s.bufferSize) : 0 < s.toRead := by
  have hused := poolUsed_lt s
  unfold toRead
  rw [hstop]
  cases s.readPos with
  | none =>
    dsimp only
    omega
  | some p =>
    dsimp only
    omega

/-- Another read is issued. -/
theorem Untouched.read (h : s.Untouched) {fd : ℕ} (hopening : s.opening = false)
    (hfd : s.fd = some fd) (hreading : s.reading = false) (hreads : s.reads = []) :
    ∃ length, s.read.Reading fd length := by
  have hpos : s.readPos = none := by
    unfold readPos
    rw [h.start]
    exact h.pos
  refine ⟨s.toRead, ?_⟩
  have hread : s.read = { s with
      reading := true
      pool := some (s.poolUsed + s.toRead)
      firstRead := s.firstRead && !s.start.isSome
      pos := s.readPos.map (· + s.toRead)
      reads := s.reads ++ [⟨s.toRead, s.readPos⟩] } := by
    unfold ReadStream.read
    rw [h.readable, h.paused, hreading]
    rfl
  rw [hread, hpos, hreads]
  exact ⟨⟨h.readable, h.paused, h.start, h.stop, rfl, h.bufferSize, h.stack, h.listeners,
    h.closes⟩, hopening, hfd, rfl, rfl, toRead_pos h.stop h.bufferSize⟩

/-- The read returns. -/
theorem Reading.completed {fd length : ℕ} (h : s.Reading fd length) (pool : Option ℕ)
    {r : Option Bytes} (hr : ∀ b ∈ r, b.length ≤ length) :
    ReadStream.step ReadFile.noDecoder { s with pool := pool } (.completed 0 r) =
      some ({ s with pool := pool, reads := [] }.afterRead ReadFile.noDecoder r) := by
  dsimp only [ReadStream.step]
  rw [h.reads, h.stack]
  dsimp only [List.getElem?_cons_zero]
  rw [if_pos]
  · rfl
  · cases r with
    | none => rfl
    | some b => simpa using hr b rfl

/-- A chunk is emitted. -/
theorem Untouched.emit (h : s.Untouched) (b : UInt8) (bytes : Bytes) : ∃ late,
    s.afterRead ReadFile.noDecoder (some (b :: bytes)) = { s with
      reading := false
      received := s.received ++ [b :: bytes]
      given := s.given ++ [b :: bytes]
      data := s.data ++ [.buffer (b :: bytes)]
      late := late
      stack := [.read] } := by
  refine ⟨if s.destroyed then s.late ++ [.buffer (b :: bytes)] else s.late, ?_⟩
  cases hdecoder : s.decoder with
  | none =>
    unfold afterRead
    dsimp only
    rw [h.paused, h.readable]
    unfold emitThen emitData
    dsimp only
    rw [hdecoder, h.stack]
    rfl
  | some decoder => exact decoder.elim

theorem Over.destroy {fd : Option ℕ} {closes : ℕ} (h : s.Over fd closes) :
    s.destroy.Over fd (closes + closings fd) := by
  obtain ⟨hopening, rfl, hreads, hstack, rfl⟩ := h
  unfold ReadStream.destroy
  dsimp only
  split
  · rename_i k hfd
    refine ⟨hopening, rfl, hreads, hstack, ?_⟩
    rw [show closings s.fd = 1 from hfd ▸ rfl]
  · rename_i hfd
    have hclosings : closings s.fd = 0 := by
      unfold closings
      split
      · rename_i k hk
        exact absurd hk (hfd k)
      · rfl
    rw [hclosings]
    exact ⟨hopening, rfl, hreads, hstack, rfl⟩

end ReadStream

namespace ReadFile
variable {memory : ℕ → UInt8} {toString : Option (Bytes → Option JSString)} {s s' : ReadFile}

/-- What a reply does, where the stream is `stream` thereafter. -/
inductive Effect (memory : ℕ → UInt8) (toString : Option (Bytes → Option JSString))
    (s : ReadFile) : Reply → ReadFile → Prop
  | openFailed {stream : ReadStream Empty} (before : s.stream.Opening)
      (after : stream.Over none 0) :
      Effect memory toString s (.opened none)
        { s with
          stream := stream, opened := false, calls := s.calls ++ [none], ends := s.ends ++ [0] }
  | opened {stream : ReadStream Empty} {fd length : ℕ} (before : s.stream.Opening)
      (after : stream.Reading fd length) :
      Effect memory toString s (.opened (some fd)) { s with stream := stream, opened := true }
  | readFailed {stream : ReadStream Empty} {fd length : ℕ} (before : s.stream.Reading fd length)
      (after : stream.Over (some fd) (ReadStream.closings (some fd))) :
      Effect memory toString s (.read none)
        { s with stream := stream, calls := s.calls ++ [none], ends := s.ends ++ [0] }
  | read {stream : ReadStream Empty} {fd length n length' : ℕ} {bytes : Bytes} {kernel : Kernel}
      (before : s.stream.Reading fd length)
      (hread : s.kernel.read length none n = some (bytes, kernel)) (hn : 0 < n)
      (after : stream.Reading fd length') :
      Effect memory toString s (.read (some n))
        { s with
          stream := stream
          kernel := kernel
          buffers := s.buffers ++ [bytes]
          nread := s.nread + n }
  | ended {stream : ReadStream Empty} {fd length : ℕ} {bytes buffer : Bytes} {kernel : Kernel}
      (before : s.stream.Reading fd length)
      (hread : s.kernel.read length none 0 = some (bytes, kernel))
      (hbuffer : s.copied memory = .ok buffer)
      (after : stream.Over (some fd) (ReadStream.closings (some fd))) :
      Effect memory toString s (.read (some 0))
        { s with
          stream := stream
          kernel := kernel
          calls := s.calls ++ [encoded toString buffer]
          ends := s.ends ++ [0] }
  | closed (before : s.stream.opening = false ∧ s.stream.reads = [])
      (h : s.closed < s.stream.closes) :
      Effect memory toString s (.closed true) { s with closed := s.closed + 1 }
  | closeFailed {fd : ℕ} {stream : ReadStream Empty} (h : s.closed < s.stream.closes)
      (before : s.stream.Over (some (fd + 1)) s.stream.closes)
      (after : stream.Over (some (fd + 1)) (s.stream.closes + 1)) :
      Effect memory toString s (.closed false)
        { s with
          stream := stream
          closed := s.closed + 1
          calls := s.calls ++ [none]
          ends := s.ends ++ [s.stream.closes] }

variable (memory toString)

/-- The listener of `'error'` calls back and destroys the stream. -/
theorem listen_failed (hstack : s.stream.stack = [.failed]) {fd : Option ℕ} {closes : ℕ}
    (h : { s.stream with stack := [] }.Over fd closes) :
    ∃ stream, stream.Over fd (closes + ReadStream.closings fd) ∧ s.listen memory toString =
      { s with stream := stream, calls := s.calls ++ [none], ends := s.ends ++ [closes] } := by
  have hcloses : s.stream.closes = closes := h.closes
  have hdestroy : { s.stream.destroy with stack := [] } =
      { s.stream with stack := [] }.destroy := by
    unfold ReadStream.destroy
    dsimp only
    split <;> rfl
  obtain ⟨hopening, hfd, hreads, -, hafter⟩ := hdestroy ▸ h.destroy
  refine ⟨{ s.stream.destroy with stack := [] }.leave .failed,
    ⟨hopening, hfd, hreads, rfl, hafter⟩, ?_⟩
  unfold listen
  rw [hstack, ← hcloses]
  rfl

/-- The listener of `'end'` calls back before the stream is destroyed. -/
theorem listen_ended (hstack : s.stream.stack = [.ended]) {fd : Option ℕ} {closes : ℕ}
    (h : { s.stream with stack := [] }.Over fd closes) {buffer : Bytes}
    (hbuffer : s.copied memory = .ok buffer) :
    ∃ stream, stream.Over fd (closes + ReadStream.closings fd) ∧ s.listen memory toString =
      { s with
        stream := stream
        calls := s.calls ++ [encoded toString buffer]
        ends := s.ends ++ [closes] } := by
  have hcloses : s.stream.closes = closes := h.closes
  refine ⟨_, h.destroy, ?_⟩
  unfold listen
  rw [hstack, ← hcloses]
  dsimp only [onEnd]
  rw [hbuffer]
  rfl

theorem listen_opened (hstack : s.stream.stack = [.opened]) :
    s.listen memory toString = { s with stream := { s.stream with stack := [] }.read } := by
  unfold listen
  rw [hstack]
  rfl

/-- The listener of `'data'` keeps the chunk, and then there is another read. -/
theorem listen_read (hstack : s.stream.stack = [.read]) {chunk : Bytes}
    (hdata : s.stream.data.getLast? = some (.buffer chunk)) :
    s.listen memory toString =
      { s.onData chunk with stream := { s.stream with stack := [] }.read } := by
  unfold listen
  rw [hstack]
  dsimp only
  rw [hdata]
  rfl

variable {memory toString}

theorem opening_effect (h : s.stream.Opening) {t : Turn}
    (hs : s.step memory toString t = some s') : Effect memory toString s t.reply s' := by
  obtain ⟨pool, reply⟩ := t
  have before := h
  obtain ⟨huntouched, hopening, hfd, hreading, hreads⟩ := h
  cases reply with
  | opened fd =>
    have hstep : ReadStream.step noDecoder { s.stream with pool := pool } (.opened fd) =
        some ({ s.stream with pool := pool }.afterOpen fd) := by
      dsimp only [ReadStream.step]
      rw [hopening, huntouched.stack]
      rfl
    dsimp only [step] at hs
    rw [hstep] at hs
    obtain rfl := Option.some.inj hs
    cases fd with
    | none =>
      have hover : ReadStream.Over none 0
          { s.stream with pool := pool, opening := false, stack := [] } :=
        ⟨rfl, hfd, hreads, rfl, huntouched.closes⟩
      obtain ⟨stream, after, heq⟩ := listen_failed memory toString (s := { s with
          stream := { s.stream with pool := pool }.afterOpen none
          opened := false }) rfl hover
      exact Eq.subst (motive := Effect memory toString s _) heq.symm (.openFailed before after)
    | some fd =>
      have hopened : ReadStream.Untouched { s.stream with
          pool := pool
          opening := false
          fd := some fd
          closes := s.stream.closes + s.stream.openListeners
          stack := [] } :=
        { huntouched with
          stack := rfl
          closes := by
            show s.stream.closes + s.stream.openListeners = 0
            rw [huntouched.closes, huntouched.listeners] }
      obtain ⟨length, after⟩ := hopened.read rfl rfl hreading hreads
      have heq := listen_opened memory toString (s := { s with
        stream := { s.stream with pool := pool }.afterOpen (some fd)
        opened := true }) rfl
      exact Eq.subst (motive := Effect memory toString s _) heq.symm (.opened before after)
  | read n =>
    cases n with
    | none =>
      have hstep : ReadStream.step noDecoder { s.stream with pool := pool } (.completed 0 none) =
          none := by
        dsimp only [ReadStream.step]
        rw [hreads]
        rfl
      dsimp only [step] at hs
      rw [hstep] at hs
      cases hs
    | some n =>
      dsimp only [step] at hs
      rw [hreads] at hs
      cases hs
  | wrote n => cases hs
  | closed ok =>
    dsimp only [step] at hs
    rw [if_neg (by rw [huntouched.closes]; omega)] at hs
    cases hs
  | tick => cases hs

theorem reading_effect {fd length : ℕ} (h : s.stream.Reading fd length) {buffer : Bytes}
    (hbuffer : s.copied memory = .ok buffer) {t : Turn}
    (hs : s.step memory toString t = some s') : Effect memory toString s t.reply s' := by
  obtain ⟨pool, reply⟩ := t
  have before := h
  obtain ⟨huntouched, hopening, hfd, hreading, hreads, hlength⟩ := h
  have hover : ReadStream.Over (some fd) 0
      { s.stream with pool := pool, reads := [], reading := false, stack := [] } :=
    ⟨hopening, hfd, rfl, rfl, huntouched.closes⟩
  cases reply with
  | opened fd' =>
    dsimp only [step, ReadStream.step] at hs
    rw [hopening] at hs
    cases hs
  | read n =>
    cases n with
    | none =>
      dsimp only [step] at hs
      rw [before.completed pool (r := none) nofun] at hs
      obtain rfl := Option.some.inj hs
      obtain ⟨stream, after, heq⟩ := listen_failed memory toString (s := { s with
          stream := { s.stream with pool := pool, reads := [] }.afterRead noDecoder none }) rfl hover
      rw [Nat.zero_add] at after
      exact Eq.subst (motive := Effect memory toString s _) heq.symm (.readFailed before after)
    | some n =>
      dsimp only [step] at hs
      rw [hreads] at hs
      obtain ⟨⟨bytes, kernel⟩, hread, hs⟩ := Option.bind_eq_some_iff.mp hs
      have hread' : s.kernel.read length none n = some (bytes, kernel) := hread
      obtain ⟨-, hbytes, hle, -, -⟩ := Kernel.read_some hread'
      have hfits : ∀ b ∈ some bytes, b.length ≤ length := by
        intro b hb
        cases hb
        omega
      dsimp only at hs
      rw [← hreads, before.completed pool hfits] at hs
      obtain rfl := Option.some.inj hs
      cases bytes with
      | nil =>
        obtain rfl : n = 0 := hbytes.symm
        obtain ⟨stream, after, heq⟩ := listen_ended memory toString (s := { s with
            stream := { s.stream with pool := pool, reads := [] }.afterRead noDecoder (some [])
            kernel := kernel }) rfl
          (⟨hopening, hfd, rfl, rfl, huntouched.closes⟩ : ReadStream.Over (some fd) 0
            { s.stream with
              pool := pool, reads := [], reading := false, ended := true, stack := [] }) hbuffer
        rw [Nat.zero_add] at after
        exact Eq.subst (motive := Effect memory toString s _) heq.symm
          (.ended before hread' hbuffer after)
      | cons b bytes =>
        have hlive : ReadStream.Untouched { s.stream with pool := pool, reads := [] } :=
          { huntouched with }
        obtain ⟨late, hemit⟩ := hlive.emit b bytes
        rw [hemit]
        have hnext : ReadStream.Untouched { s.stream with
            pool := pool
            reads := []
            reading := false
            received := s.stream.received ++ [b :: bytes]
            given := s.stream.given ++ [b :: bytes]
            data := s.stream.data ++ [.buffer (b :: bytes)]
            late := late
            stack := [] } :=
          { huntouched with stack := rfl }
        obtain ⟨length', after⟩ := hnext.read hopening hfd rfl rfl
        dsimp only
        rw [listen_read memory toString rfl List.getLast?_concat]
        subst hbytes
        exact .read before hread' (Nat.succ_pos _) after
  | wrote n => cases hs
  | closed ok =>
    dsimp only [step] at hs
    rw [if_neg (by rw [huntouched.closes]; omega)] at hs
    cases hs
  | tick => cases hs

theorem over_effect {fd : Option ℕ} {closes : ℕ} (h : s.stream.Over fd closes)
    (hfd : 0 < closes → 0 < ReadStream.closings fd) {t : Turn}
    (hs : s.step memory toString t = some s') : Effect memory toString s t.reply s' := by
  obtain ⟨pool, reply⟩ := t
  obtain ⟨hopening, rfl, hreads, hstack, rfl⟩ := id h
  cases reply with
  | opened fd' =>
    dsimp only [step, ReadStream.step] at hs
    rw [hopening] at hs
    cases hs
  | read n =>
    cases n with
    | none =>
      dsimp only [step, ReadStream.step] at hs
      rw [hreads] at hs
      cases hs
    | some n =>
      dsimp only [step] at hs
      rw [hreads] at hs
      cases hs
  | wrote n => cases hs
  | closed ok =>
    dsimp only [step] at hs
    split_ifs at hs with hlt hok
    · obtain rfl := Option.some.inj hs
      obtain rfl : ok = true := hok
      exact .closed ⟨hopening, hreads⟩ hlt
    · obtain rfl := Option.some.inj hs
      obtain rfl : ok = false := Bool.eq_false_of_not_eq_true hok
      obtain ⟨k, hk⟩ : ∃ k, s.stream.fd = some (k + 1) := by
        have hpos := hfd (by omega)
        unfold ReadStream.closings at hpos
        split at hpos
        · exact ⟨_, ‹_›⟩
        · cases hpos
      rw [hk] at h
      exact .closeFailed hlt h h.destroy
  | tick => cases hs

/-! ### What has been gathered -/

/-- The buffers make up these bytes. -/
structure Gathered (bytes : Bytes) (s : ReadFile) : Prop where
  nread : s.nread = bytes.length
  pieces : Pieces (s.buffers.map fun b => (b, b.length)) bytes

theorem Gathered.snoc {bytes chunk : Bytes} (h : s.Gathered bytes) (hchunk : 0 < chunk.length)
    (hbuffers : s'.buffers = s.buffers ++ [chunk]) (hnread : s'.nread = s.nread + chunk.length) :
    s'.Gathered (bytes ++ chunk) := by
  have hpieces := h.pieces.snoc hchunk (Nat.le_refl chunk.length)
  rw [List.take_length] at hpieces
  constructor
  · rw [hnread, h.nread, List.length_append]
  · rw [hbuffers, List.map_append]
    exact hpieces

variable (memory) in
theorem Gathered.copied {bytes : Bytes} (h : s.Gathered bytes) :
    s.copied memory = .ok bytes := by
  obtain ⟨hnread, hpieces⟩ := h
  unfold ReadFile.copied
  split
  · rename_i hnil
    rw [hnil] at hpieces
    obtain rfl : [] = bytes := hpieces.flatten
    rfl
  · rename_i b hone
    rw [hone] at hpieces
    have hflatten : b.take b.length ++ [] = bytes := hpieces.flatten
    rw [List.append_nil, List.take_length] at hflatten
    rw [hflatten]
  · rw [hnread, concat_pieces memory hpieces]

inductive Waiting (s : ReadStream Empty) : Prop
  | opening (h : s.Opening)
  | reading {fd length : ℕ} (h : s.Reading fd length)
  | past {fd : Option ℕ} {closes : ℕ} (h : s.Over fd closes)
      (hfd : 0 < closes → 0 < ReadStream.closings fd)

theorem step_effect (h : Waiting s.stream) {bytes : Bytes} (hbytes : s.Gathered bytes) {t : Turn}
    (hs : s.step memory toString t = some s') : Effect memory toString s t.reply s' := by
  cases h with
  | opening h => exact opening_effect h hs
  | reading h => exact reading_effect h (hbytes.copied memory) hs
  | past h hfd => exact over_effect h hfd hs

end ReadFile

end NodeJS.Fs
