import NodeJS.Fs.WriteStream

/-! What a `WriteStream` and `writeAll` leave in a file when the kernel may write less than it is
given. -/
namespace NodeJS.Fs

/-- A stream with flag `'w'`, its file and the offset of its descriptor, and what was passed to
`write` and `end`. -/
structure Writer where
  stream : WriteStream
  file : Bytes
  offset : ℕ
  written : List Bytes

namespace Writer

/-- The callbacks of `fs.open`, `fs.write` and `fs.close`, the return of the functions that are
called then, and the calls that do not throw. -/
inductive Turn
  | opened (fd : ℕ)
  | wrote (n : ℕ)
  | closed
  | ret
  | write (data : Chunk) (encoding : EncArg)
  | end (data : Option (Chunk × EncArg))

def Turn.isCall : Turn → Bool
  | .write _ _ => true
  | .end _ => true
  | _ => false

/-- The file may be there before, and hold anything. -/
def new (file : Bytes) : Writer := ⟨.new none, file, 0, []⟩

def act (s : Writer) (a : WriteStream.Action) : Option Writer :=
  (s.stream.step a).map fun stream => { s with stream := stream }

/-- `write(2)` may write fewer bytes than it is given, but not none. -/
def step (s : Writer) : Turn → Option Writer
  | .opened fd =>
    match s.stream.calls with
    | .open :: _ => { s with file := [], offset := 0 }.act (.called 0 (some fd))
    | _ => none
  | .wrote n =>
    match s.stream.calls with
    | .write b :: _ =>
      if n ≤ b.length ∧ (0 < b.length → 0 < n) then
        { s with file := put s.file s.offset (b.take n), offset := s.offset + n }.act
          (.called 0 (some n))
      else none
    | _ => none
  | .closed =>
    match s.stream.calls with
    | .close :: _ => s.act (.called 0 (some 0))
    | _ => none
  | .ret => s.act .ret
  | .write data encoding =>
    if s.stream.writable then
      { s with written := s.written ++ [data.encode encoding.encoding] }.act (.write data encoding)
    else none
  | .end data =>
    if s.stream.writable then
      let written := data.toList.map fun d => d.1.encode d.2.encoding
      { s with written := s.written ++ written }.act (.end data)
    else none

/-- All that is given to `write(2)` is written. -/
def Whole (s : Writer) : Turn → Writer → Prop
  | .wrote n, _ => ∀ b, .write b ∈ s.stream.calls → n = b.length
  | _, _ => True

end Writer

/-! ### The queue -/

def Op.bytes : Op → Bytes
  | .write b => b
  | _ => []

namespace WriteStream

def ops (s : WriteStream) : List Op := s.calls ++ s.queue

/-- At most one call is being made, and none only if none waits or `flush` will be called. -/
structure Tidy (s : WriteStream) : Prop where
  calls : s.calls.length = if s.busy then 1 else 0
  idle : s.busy = false → s.running = true ∨ s.queue = []
  fd : s.fd = none → s.busy = true

variable {s : WriteStream}

/-- What `flush` does to a stream that is open or busy. -/
structure Flushed (s t : WriteStream) : Prop where
  ops : t.ops = s.ops
  calls : t.calls.length = if t.busy then 1 else 0
  idle : t.busy = false → t.queue = []
  fd : t.fd = s.fd
  busy : t.fd = none → t.busy = true
  writable : t.writable = s.writable
  running : t.running = s.running
  closed : t.closed = s.closed

theorem flushed (hcalls : s.calls.length = if s.busy then 1 else 0)
    (hfd : s.fd = none → s.busy = true) : Flushed s s.flush := by
  unfold flush
  split
  · rename_i hbusy
    refine ⟨rfl, hcalls, ?_, rfl, hfd, rfl, rfl, rfl⟩
    intro hfalse
    cases hbusy.symm.trans hfalse
  · rename_i hbusy
    have hnil : s.calls = [] := by
      rw [if_neg hbusy] at hcalls
      exact List.length_eq_zero_iff.mp hcalls
    have hsome : s.fd.isNone = false := by
      by_contra hnone
      exact hbusy (hfd (by simpa using hnone))
    split
    · rename_i hqueue
      split
      · exact ⟨rfl, hcalls, fun _ => hqueue, rfl, hfd, rfl, rfl, rfl⟩
      · exact ⟨rfl, hcalls, fun _ => hqueue, rfl, hfd, rfl, rfl, rfl⟩
    · rename_i op queue hqueue
      have hops : s.ops = op :: queue := by
        unfold ops
        rw [hnil, hqueue]
        rfl
      -- the call is made, since there is a descriptor
      obtain ⟨closes, finished, heq⟩ : ∃ closes finished,
          ({ s with queue := queue, busy := true } : WriteStream).call op =
            { s with
              queue := queue, busy := true, calls := [op], closes := closes
              finished := finished } := by
        unfold call
        cases op with
        | «open» =>
          refine ⟨s.closes, s.finished, ?_⟩
          rw [hnil]
          rfl
        | write b =>
          refine ⟨s.closes, s.finished, ?_⟩
          rw [hnil, hsome]
          rfl
        | close =>
          refine ⟨s.closes + 1, true, ?_⟩
          rw [hnil, hsome]
          rfl
      rw [heq]
      exact ⟨hops.symm, rfl, nofun, rfl, fun _ => rfl, rfl, rfl, rfl⟩

theorem Flushed.tidy {t : WriteStream} (h : Flushed s t) : t.Tidy :=
  ⟨h.calls, fun hbusy => Or.inr (h.idle hbusy), h.busy⟩

/-- A call joins the end of the queue. -/
theorem Tidy.push (h : s.Tidy) (op : Op) (writable drainable : Bool) :
    Flushed { s with queue := s.queue ++ [op], writable := writable, drainable := drainable }
      ({ s with
        queue := s.queue ++ [op], writable := writable, drainable := drainable } : WriteStream).flush ∧
    ({ s with
      queue := s.queue ++ [op], writable := writable, drainable := drainable } : WriteStream).ops =
      s.ops ++ [op] :=
  ⟨flushed h.calls h.fd, (List.append_assoc _ _ _).symm⟩

end WriteStream

namespace Writer

def rest (s : Writer) : Bytes := s.stream.ops.flatMap Op.bytes

def content (s : Writer) : Bytes := if s.stream.fd.isNone then [] else s.file

/-- The calls of a stream that is or is not open, with these writes, and that ended or did not. -/
def script (opening : Bool) (writes : List Bytes) (ending : Bool) : List Op :=
  (if opening then [.open] else []) ++ writes.map .write ++ if ending then [.close] else []

structure Queued (s : Writer) : Prop where
  tidy : s.stream.Tidy
  ops : ∃ writes, s.stream.ops =
    script s.stream.fd.isNone writes (!s.stream.writable && !s.stream.closed)
  closed : s.stream.closed = true → s.stream.writable = false ∧ s.stream.ops = []
  offset : s.stream.fd.isNone = false → s.offset = s.file.length
  running : s.stream.running = true → s.stream.fd.isNone = false

/-- What a turn does to the file and to what is still to be written. -/
inductive Effect (s s' : Writer) : Turn → Prop
  | other (t : Turn) (turn : ∀ n, t ≠ .wrote n) (bs : List Bytes) (content : s'.content = s.content)
      (rest : s'.rest = s.rest ++ bs.flatten) (written : s'.written = s.written ++ bs) :
      Effect s s' t
  | wrote (n : ℕ) (b : Bytes) (calls : s.stream.calls = [.write b]) (count : n ≤ b.length)
      (content : s'.content = s.content ++ b.take n) (rest : s.rest = b ++ s'.rest)
      (written : s'.written = s.written) : Effect s s' (.wrote n)

/-- How many turns are left at most, not counting calls. -/
def work (s : Writer) : ℕ := 2 * s.stream.ops.length + if s.stream.running then 1 else 0

structure Turned (s s' : Writer) (t : Turn) : Prop where
  queued : s'.Queued
  effect : Effect s s' t
  event : t.isCall = false → s'.work < s.work
  call : t.isCall = true → s'.work ≤ s.work + 4

variable {s s' : Writer} {t : Turn}

/-- The callback of the call that is being made. -/
theorem act_called {op : Op} {calls : List Op} {file : Bytes} {offset r : ℕ} (h : s.stream.Tidy)
    (hcalls : s.stream.calls = op :: calls)
    (hs : { s with file := file, offset := offset }.act (.called 0 (some r)) = some s') :
    s.stream.running = false ∧ s.stream.ops = op :: s.stream.queue ∧ s.stream.calls = [op] ∧
      s' = ⟨({ s.stream with calls := [] } : WriteStream).called op (some r), file, offset,
        s.written⟩ := by
  have hlength := h.calls
  have hnil : calls = [] := by
    rw [hcalls, List.length_cons] at hlength
    split_ifs at hlength
    · exact List.length_eq_zero_iff.mp (Nat.succ.inj hlength)
  rw [hnil] at hcalls
  obtain ⟨stream, hstream, rfl⟩ := Option.map_eq_some_iff.mp hs
  dsimp only [WriteStream.step] at hstream
  rw [hcalls] at hstream
  dsimp only [List.getElem?_cons_zero] at hstream
  split_ifs at hstream with hrunning
  refine ⟨by simpa using hrunning, ?_, hcalls, ?_⟩
  · unfold WriteStream.ops
    rw [hcalls]
    rfl
  · rw [← Option.some.inj hstream]
    rfl

/-- The first of the calls of a script. -/
theorem script_eq_cons {opening ending : Bool} {writes : List Bytes} {op : Op} {ops : List Op}
    (h : op :: ops = script opening writes ending) :
    (op = .open ∧ opening = true ∧ ops = script false writes ending) ∨
    (∃ b writes', op = .write b ∧ opening = false ∧ ops = script false writes' ending) ∨
      (op = .close ∧ opening = false ∧ ending = true ∧ ops = []) := by
  unfold script at h
  cases opening with
  | true =>
    obtain ⟨hop, hops⟩ := List.cons.inj h
    exact Or.inl ⟨hop, rfl, hops⟩
  | false =>
    right
    cases writes with
    | cons b writes =>
      obtain ⟨hop, hops⟩ := List.cons.inj h
      exact Or.inl ⟨b, writes, hop, rfl, hops⟩
    | nil =>
      cases ending with
      | true =>
        obtain ⟨hop, hops⟩ := List.cons.inj h
        exact Or.inr ⟨hop, rfl, rfl, hops⟩
      | false => cases h

theorem Queued.not_closed (h : s.Queued) {op : Op} {ops : List Op} (hops : s.stream.ops = op :: ops) :
    s.stream.closed = false := by
  by_contra hclosed
  rw [(h.closed (by simpa using hclosed)).2] at hops
  cases hops

/-- What the file holds after a write at its end. -/
theorem put_length (file b : Bytes) : put file file.length b = file ++ b := by
  unfold put
  simp

theorem turned_opened (h : s.Queued) {fd : ℕ} (hs : s.step (.opened fd) = some s') :
    Turned s s' (.opened fd) := by
  dsimp only [step] at hs
  split at hs
  · rename_i calls hcalls
    obtain ⟨hrunning, hops, -, rfl⟩ := act_called h.tidy hcalls hs
    obtain ⟨writes, hscript⟩ := h.ops
    obtain ⟨-, hnone, hqueue⟩ | ⟨_, _, hop, -⟩ | ⟨hop, -⟩ := script_eq_cons (hops.symm.trans hscript)
    · have hopen := h.not_closed hops
      refine ⟨⟨⟨rfl, fun _ => Or.inl rfl, nofun⟩, ⟨writes, hqueue⟩, ?_, fun _ => rfl, fun _ => rfl⟩,
        .other _ nofun [] ?_ ?_ (List.append_nil _).symm, fun _ => ?_, nofun⟩
      · intro hclosed
        cases hopen.symm.trans hclosed
      · unfold content
        rw [hnone]
        rfl
      · unfold rest
        rw [hops]
        exact (List.append_nil _).symm
      · unfold work
        rw [hops, hrunning]
        show 2 * s.stream.queue.length + 1 < 2 * (s.stream.queue.length + 1) + 0
        omega
    · cases hop
    · cases hop
  · cases hs

theorem turned_wrote (h : s.Queued) {n : ℕ} (hs : s.step (.wrote n) = some s') :
    Turned s s' (.wrote n) := by
  dsimp only [step] at hs
  split at hs
  · rename_i b calls hcalls
    obtain ⟨hcount, hact⟩ := Option.ite_none_right_eq_some.mp hs
    obtain ⟨hrunning, hops, hcall, rfl⟩ := act_called h.tidy hcalls hact
    obtain ⟨writes, hscript⟩ := h.ops
    obtain ⟨hop, -⟩ | ⟨b', writes', hop, hsome, hqueue⟩ | ⟨hop, -⟩ :=
      script_eq_cons (hops.symm.trans hscript)
    · cases hop
    · have hoffset := h.offset hsome
      have hopen := h.not_closed hops
      have hfile : put s.file s.offset (b.take n) = s.file ++ b.take n := by
        rw [hoffset, put_length]
      refine ⟨⟨⟨rfl, fun _ => Or.inl rfl, ?_⟩, ⟨writes', ?_⟩, ?_, fun _ => ?_, fun _ => hsome⟩,
        .wrote n b hcall hcount.1 ?_ ?_ rfl, fun _ => ?_, nofun⟩
      · intro hnone
        rw [show s.stream.fd = none from hnone] at hsome
        cases hsome
      · show s.stream.queue = script s.stream.fd.isNone writes' _
        rw [hsome]
        exact hqueue
      · intro hclosed
        cases hopen.symm.trans hclosed
      · show s.offset + n = (put s.file s.offset (b.take n)).length
        rw [hfile, List.length_append, List.length_take, hoffset, Nat.min_eq_left hcount.1]
      · show (if s.stream.fd.isNone then [] else put s.file s.offset (b.take n)) = _
        unfold content
        rw [hsome, hfile]
        rfl
      · unfold rest
        rw [hops]
        rfl
      · unfold work
        rw [hops, hrunning]
        show 2 * s.stream.queue.length + 1 < 2 * (s.stream.queue.length + 1) + 0
        omega
    · cases hop
  · cases hs

theorem turned_closed (h : s.Queued) (hs : s.step .closed = some s') : Turned s s' .closed := by
  dsimp only [step] at hs
  split at hs
  · rename_i calls hcalls
    obtain ⟨hrunning, hops, -, rfl⟩ := act_called h.tidy hcalls hs
    obtain ⟨writes, hscript⟩ := h.ops
    obtain ⟨hop, -⟩ | ⟨_, _, hop, -⟩ | ⟨-, hsome, hending, hqueue⟩ :=
      script_eq_cons (hops.symm.trans hscript)
    · cases hop
    · cases hop
    · have hwritable : s.stream.writable = false := by
        by_contra hw
        rw [show s.stream.writable = true by simpa using hw] at hending
        cases hending
      refine ⟨⟨⟨rfl, fun _ => Or.inr hqueue, ?_⟩, ⟨[], ?_⟩, fun _ => ⟨hwritable, hqueue⟩, h.offset,
        fun _ => hsome⟩, .other _ nofun [] rfl ?_ (List.append_nil _).symm, fun _ => ?_, nofun⟩
      · intro hnone
        rw [show s.stream.fd = none from hnone] at hsome
        cases hsome
      · show s.stream.queue = script s.stream.fd.isNone [] (!s.stream.writable && !true)
        rw [hsome, hqueue, Bool.not_true, Bool.and_false]
        rfl
      · unfold rest
        rw [hops]
        exact (List.append_nil _).symm
      · unfold work
        rw [hops, hrunning]
        show 2 * s.stream.queue.length + (if s.stream.running then 1 else 0) <
          2 * (s.stream.queue.length + 1) + 0
        rw [hrunning]
        show 2 * s.stream.queue.length + 0 < _
        omega
  · cases hs

/-- The queue after `flush`. -/
theorem Queued.of_flushed {stream : WriteStream} (h : s.Queued)
    (hflushed : stream.Flushed s'.stream) (hfile : s'.file = s.file) (hoffset : s'.offset = s.offset)
    (hfd : stream.fd = s.stream.fd) (hrunning : stream.running = true → s.stream.running = true)
    (hops : ∃ writes, stream.ops =
      script s.stream.fd.isNone writes (!stream.writable && !stream.closed))
    (hclosed : stream.closed = true → stream.writable = false ∧ stream.ops = []) : s'.Queued := by
  have hfd' : s'.stream.fd = s.stream.fd := hflushed.fd.trans hfd
  refine ⟨hflushed.tidy, ?_, ?_, ?_, ?_⟩
  · rw [hflushed.ops, hfd', hflushed.writable, hflushed.closed]
    exact hops
  · rw [hflushed.ops, hflushed.writable, hflushed.closed]
    exact hclosed
  · rw [hfd', hoffset, hfile]
    exact h.offset
  · rw [hfd', hflushed.running]
    exact fun hr => h.running (hrunning hr)

theorem turned_ret (h : s.Queued) (hs : s.step .ret = some s') : Turned s s' .ret := by
  obtain ⟨stream, hstream, rfl⟩ := Option.map_eq_some_iff.mp hs
  dsimp only [WriteStream.step] at hstream
  split_ifs at hstream with hrunning
  have hflushed : WriteStream.Flushed { s.stream with running := false } stream := by
    rw [← Option.some.inj hstream]
    exact WriteStream.flushed h.tidy.calls h.tidy.fd
  have hops : stream.ops = s.stream.ops := hflushed.ops
  have hfd : stream.fd = s.stream.fd := hflushed.fd
  refine ⟨h.of_flushed hflushed rfl rfl rfl nofun h.ops h.closed,
    .other _ nofun [] ?_ ?_ (List.append_nil _).symm, fun _ => ?_, nofun⟩
  · unfold content
    dsimp only
    rw [hfd]
  · unfold rest
    dsimp only
    rw [hops]
    exact (List.append_nil _).symm
  · unfold work
    dsimp only
    rw [hops, hflushed.running, hrunning]
    exact Nat.lt_succ_self _

theorem script_write (opening : Bool) (writes : List Bytes) (b : Bytes) :
    script opening writes false ++ [.write b] = script opening (writes ++ [b]) false := by
  unfold script
  simp

theorem script_end (opening : Bool) (writes : List Bytes) :
    script opening writes false ++ [.close] = script opening writes true := by
  unfold script
  simp

/-- Operations that join the end of the queue of a stream that is writable. -/
theorem turned_push (h : s.Queued) (hwritable : s.stream.writable = true) {bs : List Bytes}
    {ops : List Op} {stream : WriteStream} (hops : stream.ops = s.stream.ops ++ ops)
    (hbytes : ops.flatMap Op.bytes = bs.flatten) (hlength : ops.length ≤ 2)
    (hscript : ∀ writes, ∃ writes', script s.stream.fd.isNone writes false ++ ops =
      script s.stream.fd.isNone writes' (!stream.writable))
    (hfd : stream.fd = s.stream.fd) (hrunning : stream.running = s.stream.running)
    (hclosed : stream.closed = s.stream.closed) (htidy : stream.Tidy) (ht : t.isCall = true) :
    Turned s { s with stream := stream, written := s.written ++ bs } t := by
  have hopen : s.stream.closed = false := by
    by_contra hc
    cases hwritable.symm.trans (h.closed (by simpa using hc)).1
  refine ⟨⟨htidy, ?_, ?_, ?_, ?_⟩, .other _ ?_ bs ?_ ?_ rfl, ?_, fun _ => ?_⟩
  · obtain ⟨writes, heq⟩ := h.ops
    rw [hwritable, hopen] at heq
    obtain ⟨writes', heq'⟩ := hscript writes
    refine ⟨writes', ?_⟩
    dsimp only
    rw [hops, heq, hfd, hclosed, hopen, Bool.not_false, Bool.and_true, Bool.and_true]
    exact heq'
  · intro hc
    cases (hopen.symm.trans hclosed.symm).trans hc
  · dsimp only
    rw [hfd]
    exact h.offset
  · dsimp only
    rw [hfd, hrunning]
    exact h.running
  · intro n hn
    rw [hn] at ht
    cases ht
  · unfold content
    dsimp only
    rw [hfd]
  · unfold rest
    dsimp only
    rw [hops, List.flatMap_append, hbytes]
  · intro hf
    cases hf.symm.trans ht
  · unfold work
    dsimp only
    rw [hops, hrunning, List.length_append]
    omega

theorem write_eq {stream : WriteStream} (hwritable : stream.writable = true) (htidy : stream.Tidy)
    (data : Chunk) (encoding : EncArg) :
    ∃ stream', stream.write data encoding = some stream' ∧ stream'.Tidy ∧
      stream'.ops = stream.ops ++ [.write (data.encode encoding.encoding)] ∧
      stream'.fd = stream.fd ∧ stream'.running = stream.running ∧ stream'.closed = stream.closed ∧
      stream'.writable = true := by
  obtain ⟨hflushed, hops⟩ := htidy.push (.write (data.encode encoding.encoding)) stream.writable true
  refine ⟨_, if_pos hwritable, hflushed.tidy, hflushed.ops.trans hops, hflushed.fd, hflushed.running,
    hflushed.closed, hflushed.writable.trans hwritable⟩

theorem finish_eq {stream : WriteStream} (htidy : stream.Tidy) :
    stream.finish.Tidy ∧ stream.finish.ops = stream.ops ++ [.close] ∧
      stream.finish.fd = stream.fd ∧ stream.finish.running = stream.running ∧
      stream.finish.closed = stream.closed ∧ stream.finish.writable = false := by
  obtain ⟨hflushed, hops⟩ := htidy.push .close false stream.drainable
  exact ⟨hflushed.tidy, hflushed.ops.trans hops, hflushed.fd, hflushed.running, hflushed.closed,
    hflushed.writable⟩

theorem turned_write (h : s.Queued) {data : Chunk} {encoding : EncArg}
    (hs : s.step (.write data encoding) = some s') : Turned s s' (.write data encoding) := by
  dsimp only [step] at hs
  split_ifs at hs with hwritable
  obtain ⟨stream, hwrite, htidy, hops, hfd, hrunning, hclosed, hkept⟩ :=
    write_eq hwritable h.tidy data encoding
  have hs' : s' = { s with
      stream := stream, written := s.written ++ [data.encode encoding.encoding] } := by
    dsimp only [act, WriteStream.step] at hs
    rw [hwrite] at hs
    exact (Option.some.inj hs).symm
  rw [hs']
  refine turned_push h hwritable hops rfl (Nat.le_succ 1) ?_ hfd hrunning hclosed htidy rfl
  intro writes
  rw [hkept]
  exact ⟨_, script_write _ writes _⟩

theorem turned_end (h : s.Queued) {data : Option (Chunk × EncArg)}
    (hs : s.step (.end data) = some s') : Turned s s' (.end data) := by
  dsimp only [step] at hs
  split_ifs at hs with hwritable
  cases data with
  | none =>
    obtain ⟨htidy, hops, hfd, hrunning, hclosed, hkept⟩ := finish_eq h.tidy
    have hs' : s' = { s with stream := s.stream.finish, written := s.written ++ [] } :=
      (Option.some.inj hs).symm
    rw [hs']
    refine turned_push h hwritable hops rfl (Nat.le_succ 1) ?_ hfd hrunning hclosed htidy rfl
    intro writes
    rw [hkept]
    exact ⟨writes, script_end _ writes⟩
  | some d =>
    obtain ⟨stream, hwrite, htidy, hops, hfd, hrunning, hclosed, -⟩ :=
      write_eq hwritable h.tidy d.1 d.2
    obtain ⟨htidy', hops', hfd', hrunning', hclosed', hkept⟩ := finish_eq htidy
    have hs' : s' = { s with
        stream := stream.finish, written := s.written ++ [d.1.encode d.2.encoding] } := by
      dsimp only [act, WriteStream.step, WriteStream.end] at hs
      rw [hwrite] at hs
      exact (Option.some.inj hs).symm
    rw [hs']
    have hboth : stream.finish.ops =
        s.stream.ops ++ [.write (d.1.encode d.2.encoding), .close] := by
      rw [hops', hops, List.append_assoc]
      rfl
    refine turned_push h hwritable hboth rfl (Nat.le_refl 2) ?_ (hfd'.trans hfd)
      (hrunning'.trans hrunning) (hclosed'.trans hclosed) htidy' rfl
    intro writes
    refine ⟨writes ++ [d.1.encode d.2.encoding], ?_⟩
    rw [hkept]
    calc script s.stream.fd.isNone writes false ++ [.write (d.1.encode d.2.encoding), .close]
        = script s.stream.fd.isNone writes false ++ [.write (d.1.encode d.2.encoding)] ++
          [.close] := by
          rw [List.append_assoc]
          rfl
      _ = script s.stream.fd.isNone (writes ++ [d.1.encode d.2.encoding]) true := by
          rw [script_write, script_end]

theorem turned (h : s.Queued) (hs : s.step t = some s') : Turned s s' t := by
  cases t with
  | opened fd => exact turned_opened h hs
  | wrote n => exact turned_wrote h hs
  | closed => exact turned_closed h hs
  | ret => exact turned_ret h hs
  | write data encoding => exact turned_write h hs
  | «end» data => exact turned_end h hs

theorem queued_new (file : Bytes) : (new file).Queued where
  tidy := ⟨rfl, nofun, fun _ => rfl⟩
  ops := ⟨[], rfl⟩
  closed := nofun
  offset := nofun
  running := nofun

/-- The call that is being made can call back. -/
theorem exists_called (hrunning : s.stream.running = false) {op : Op}
    (hcalls : s.stream.calls = [op]) (file : Bytes) (offset n : ℕ) :
    ∃ s', { s with file := file, offset := offset }.act (.called 0 (some n)) = some s' := by
  dsimp only [act, WriteStream.step]
  rw [hcalls]
  dsimp only [List.getElem?_cons_zero]
  rw [if_neg (by rw [hrunning]; exact Bool.false_ne_true)]
  exact ⟨_, rfl⟩

/-- A stream that was ended is being closed, or something before it. -/
theorem exists_call (h : s.Queued) (hwritable : s.stream.writable = false)
    (hclosed : s.stream.closed = false) (hrunning : s.stream.running = false) :
    ∃ op, s.stream.calls = [op] := by
  have hne : s.stream.ops ≠ [] := by
    obtain ⟨writes, hops⟩ := h.ops
    rw [hops, hwritable, hclosed]
    unfold script
    simp
  have hlength := h.tidy.calls
  have hbusy : s.stream.busy = true := by
    by_contra hidle
    rw [if_neg hidle] at hlength
    rcases h.tidy.idle (by simpa using hidle) with hr | hqueue
    · cases hrunning.symm.trans hr
    · apply hne
      unfold WriteStream.ops
      rw [hqueue, List.length_eq_zero_iff.mp hlength]
      rfl
  rw [if_pos hbusy] at hlength
  exact List.length_eq_one_iff.mp hlength

/-- A stream that has been ended waits for something until it is closed. -/
theorem exists_turn (h : s.Queued) (hwritable : s.stream.writable = false)
    (hclosed : s.stream.closed = false) : ∃ t s', t.isCall = false ∧ s.step t = some s' := by
  cases hrunning : s.stream.running with
  | true =>
    refine ⟨.ret, { s with stream := ({ s.stream with running := false } : WriteStream).flush }, rfl,
      ?_⟩
    dsimp only [step, act, WriteStream.step]
    rw [if_pos hrunning]
    rfl
  | false =>
    obtain ⟨op, hcalls⟩ := exists_call h hwritable hclosed hrunning
    have hact := exists_called hrunning hcalls
    cases op with
    | «open» =>
      obtain ⟨s', hs'⟩ := hact [] 0 0
      refine ⟨.opened 0, s', rfl, ?_⟩
      dsimp only [step]
      rw [hcalls]
      exact hs'
    | write b =>
      obtain ⟨s', hs'⟩ := hact (put s.file s.offset (b.take b.length)) (s.offset + b.length) b.length
      refine ⟨.wrote b.length, s', rfl, ?_⟩
      dsimp only [step]
      rw [hcalls]
      dsimp only
      rw [if_pos ⟨Nat.le_refl _, id⟩]
      exact hs'
    | close =>
      obtain ⟨s', hs'⟩ := hact s.file s.offset 0
      refine ⟨.closed, s', rfl, ?_⟩
      dsimp only [step]
      rw [hcalls]
      exact hs'

/-! ### The bytes in the file -/

def Exactly (s : Writer) : Prop := s.content ++ s.rest = s.written.flatten

/-- Nothing is in the file but what was written. -/
def Fits (s : Writer) : Prop := s.content.length + s.rest.length ≤ s.written.flatten.length

/-- Something that was written is not in the file and will not be. -/
def Lacks (s : Writer) : Prop := s.content.length + s.rest.length < s.written.flatten.length

theorem Exactly.step (h : s.Queued) (hexactly : s.Exactly) (hwhole : s.Whole t s')
    (hs : s.step t = some s') : s'.Exactly := by
  unfold Exactly at *
  cases (turned h hs).effect with
  | other _ _ bs hcontent hrest hwritten =>
    rw [hcontent, hrest, hwritten, List.flatten_append, ← hexactly, List.append_assoc]
  | wrote n b hcalls _ hcontent hrest hwritten =>
    have hn : n = b.length := hwhole b (by rw [hcalls]; exact List.mem_singleton_self _)
    rw [hcontent, hn, List.take_length, hwritten, List.append_assoc, ← hrest]
    exact hexactly

theorem Fits.step (h : s.Queued) (hfits : s.Fits) (hs : s.step t = some s') :
    s'.Fits ∧ (s.Lacks → s'.Lacks) ∧ (s.Whole t s' ∨ s'.Lacks) := by
  unfold Fits Lacks at *
  cases (turned h hs).effect with
  | other _ hturn bs hcontent hrest hwritten =>
    rw [hcontent, hrest, hwritten, List.flatten_append, List.length_append, List.length_append]
    refine ⟨by omega, by omega, Or.inl ?_⟩
    cases t with
    | wrote n => exact absurd rfl (hturn n)
    | _ => trivial
  | wrote n b hcalls hcount hcontent hrest hwritten =>
    rw [hrest, List.length_append] at hfits ⊢
    rw [hcontent, hwritten, List.length_append, List.length_take]
    refine ⟨by omega, by omega, ?_⟩
    by_cases hn : n = b.length
    · left
      intro b' hb'
      rw [hcalls] at hb'
      obtain rfl : b' = b := Op.write.inj (List.mem_singleton.mp hb')
      exact hn
    · right
      omega

theorem countP_le {file : Bytes} {turns : List Turn}
    (hrun : Lib.run step (new file) turns = some s) :
    turns.countP (!·.isCall) ≤ 2 + 4 * turns.countP (·.isCall) := by
  have hcount := Lib.countP_le_of_run (p := (!·.isCall)) (c := 4) (I := Queued) (μ := work)
    (queued_new file) (fun _ _ _ h hs => (turned h hs).queued)
    (fun _ t _ h ht hs => (turned h hs).event (by simpa using ht))
    (fun _ t _ h ht hs => (turned h hs).call (by simpa using ht)) hrun
  simp only [Bool.not_not] at hcount
  exact hcount

end Writer

/-! ### `writeAll` -/

namespace WriteAll
variable {buffer : Bytes} {s s' : WriteAll} {n : ℕ}

/-- What was written so far is the first part of the buffer. -/
structure Copied (buffer : Bytes) (s : WriteAll) : Prop where
  part : s.closed = false → s.offset + s.length = buffer.length ∧ s.file = buffer.take s.offset
  whole : s.closed = true → s.file = buffer

def work (s : WriteAll) : ℕ := if s.closed then 0 else s.length + 1

theorem Copied.step (hmax : buffer.length ≤ kMaxLength) (h : s.Copied buffer)
    (hs : s.step buffer n = some s') : s'.Copied buffer ∧ s'.work < s.work := by
  unfold WriteAll.step at hs
  obtain ⟨⟨hopen, hle, hpos⟩, hsome⟩ := Option.ite_none_right_eq_some.mp hs
  obtain ⟨hlength, hfile⟩ := h.part hopen
  have hoffset : getOffset (some s.offset) = some s.offset := by
    unfold getOffset
    rw [Option.filter_some, if_pos]
    unfold kMaxLength at hmax
    simp only [decide_eq_true_eq]
    omega
  have hbytes : ((buffer.drop s.offset).take s.length).take n = (buffer.drop s.offset).take n := by
    rw [List.take_take, Nat.min_eq_left hle]
  have hput : put s.file s.offset ((buffer.drop s.offset).take n) = buffer.take (s.offset + n) := by
    have hend : s.offset = s.file.length := by
      rw [hfile, List.length_take]
      omega
    calc put s.file s.offset ((buffer.drop s.offset).take n)
        = s.file ++ (buffer.drop s.offset).take n := by
          nth_rewrite 1 [hend]
          exact Writer.put_length _ _
      _ = buffer.take (s.offset + n) := by
          rw [hfile, List.take_add]
  rw [hoffset, hbytes] at hsome
  dsimp only at hsome
  rw [hput] at hsome
  unfold work
  split_ifs at hsome with hall
  · obtain rfl := Option.some.inj hsome
    refine ⟨⟨nofun, fun _ => ?_⟩, ?_⟩
    · show buffer.take (s.offset + n) = buffer
      rw [hall, hlength, List.take_length]
    · rw [hopen]
      exact Nat.succ_pos _
  · obtain rfl := Option.some.inj hsome
    refine ⟨⟨fun _ => ⟨?_, rfl⟩, ?_⟩, ?_⟩
    · show s.offset + n + (s.length - n) = buffer.length
      omega
    · intro hclosed
      cases hopen.symm.trans hclosed
    · rw [hopen]
      show s.length - n + 1 < s.length + 1
      omega

end WriteAll

namespace Writer
variable {s : Writer} {file : Bytes} {turns : List Turn}

end Writer

end NodeJS.Fs
