import NodeJS.Net.Drain

/-! What one `_writeOut` does to the queues of a socket, for any data and any answer of the
kernel. -/
namespace NodeJS.Net

def Data.size (encoding : EncArg) : Data → ℕ
  | .str s => (encode encoding.encoding s).length
  | .buf b => b.length

def Entry.size (e : Entry) : ℕ := e.data.size e.encoding

def queuedSize (queue : List Entry) : ℕ := (queue.map Entry.size).sum

@[simp] theorem queuedSize_nil : queuedSize [] = 0 := rfl

@[simp] theorem queuedSize_cons (e : Entry) (q : List Entry) :
    queuedSize (e :: q) = e.size + queuedSize q := by
  simp [queuedSize]

@[simp] theorem queuedSize_append (q q' : List Entry) :
    queuedSize (q ++ q') = queuedSize q + queuedSize q' := by
  simp [queuedSize]

/-- An exception before anything was done with the data. -/
def Exc.drops : Exc → Bool
  | .write _ => true
  | .assertion => true
  | _ => false

/-- What `_writeOut` offers to the kernel of an item: how many bytes, and whether they are all of
it. `none` where it throws before. -/
def offer (p : Pool) (encoding : EncArg) : Data → Option (ℕ × Bool)
  | .buf b => some (b.length, true)
  | .str s =>
    match bufferWrite kPoolSize s p.ensure.used encoding.encoding with
    | .error _ => none
    | .ok w =>
      if s.length > 0 ∧ w.written = 0 then none else some (w.written, w.charsWritten = s.length)

/-- The kernel takes all of the bytes it is offered. -/
def Sys.All (sys : Sys) (len : ℕ) : Prop := ∃ n, sys = .wrote n ∧ len ≤ n

/-- The callbacks that are called for an entry that is done. -/
def calledBack : Option Callback → List ℕ
  | some (.user id) => [id]
  | _ => []

/-- `s'` is `s` after `m` bytes were taken and `front` was put back. -/
structure Moved (s s' : Socket) (m : ℕ) (front : List Entry) : Prop where
  queue : s'.queue = front ++ s.queue
  wire : s'.wire.length = s.wire.length + m
  unix : s'.unix = s.unix
  writable : s'.writable = s.writable
  connecting : s'.connecting = s.connecting
  destroyed : s'.destroyed = s.destroyed
  endOfFile : s'.endOfFile = s.endOfFile

/-- What an item of `size` bytes comes to, of which `len` were offered. -/
inductive Outcome (sys : Sys) (s : Socket) (size len : ℕ) (whole : Bool) (fd : Option ℕ)
    (cb : Option Callback) : Except Exc Bool → Socket → Prop
  | whole {r : Except Exc Bool} {s' : Socket} (hwhole : whole = true)
      (hmoved : Moved s s' size []) (hfd : s'.queueFD = s.queueFD)
      (hpassed : s.unix = true → s'.passed = s.passed ++ fd.toList)
      (hcalled : s'.called = s.called ++ calledBack cb)
      (hr : r = if cb = some .merged then .error .callback else .ok true) :
      Outcome sys s size len whole fd cb r s'
  /-- The kernel took what it was offered of a string. -/
  | rest {s' : Socket} {e : Entry} (hwhole : whole = false) (hmoved : Moved s s' len [e])
      (hsize : len + e.size = size) (hcb : e.cb = cb) (hfd : s'.queueFD = s.queueFD)
      (hpassed : s.unix = true → s'.passed = s.passed ++ fd.toList)
      (hcalled : s'.called = s.called) : Outcome sys s size len whole fd cb (.ok false) s'
  /-- The kernel refused what it was offered, or took a part of it. -/
  | left {s' : Socket} {front : List Entry} {m : ℕ} (hall : ¬ sys.All len)
      (hmoved : Moved s s' m front) (hsize : m + queuedSize front = size)
      (hcb : ∀ e ∈ front, e.cb = cb) (hlength : front.length = if whole then 1 else 2)
      (hfirst : ∃ e ∈ front.head?, m + e.size = len)
      (hfd : s'.queueFD = if m = 0 then fd :: s.queueFD else s.queueFD)
      (htaken : sys = .again ∧ m = 0 ∨ ∃ n, sys = .wrote n ∧ n < len ∧ m = n)
      (hpassed : s.unix = true →
        s'.passed = if sys = .again then s.passed else s.passed ++ fd.toList)
      (hcalled : s'.called = s.called) : Outcome sys s size len whole fd cb (.ok false) s'

theorem Outcome.moved {sys : Sys} {s s' : Socket} {size len : ℕ} {whole : Bool} {fd : Option ℕ}
    {cb : Option Callback} {r : Except Exc Bool} (h : Outcome sys s size len whole fd cb r s') :
    ∃ m front, Moved s s' m front := by
  cases h with
  | whole _ hmoved => exact ⟨_, _, hmoved⟩
  | rest _ hmoved => exact ⟨_, _, hmoved⟩
  | left _ hmoved => exact ⟨_, _, hmoved⟩

/-- Nothing throws but a function made of two callbacks. -/
theorem Outcome.ok {sys : Sys} {s s' : Socket} {size len : ℕ} {whole : Bool} {fd : Option ℕ}
    {cb : Option Callback} {r : Except Exc Bool} (h : Outcome sys s size len whole fd cb r s')
    (hcb : cb ≠ some .merged) : ∃ b, r = .ok b := by
  cases h with
  | whole _ _ _ _ _ hr => exact ⟨true, hr.trans (if_neg hcb)⟩
  | rest => exact ⟨false, rfl⟩
  | left => exact ⟨false, rfl⟩

theorem Outcome.not_drops {sys : Sys} {s s' : Socket} {size len : ℕ} {whole : Bool}
    {fd : Option ℕ} {cb : Option Callback} {exc : Exc}
    (h : Outcome sys s size len whole fd cb (.error exc) s') : exc.drops = false := by
  cases h with
  | whole _ _ _ _ _ hr =>
    split_ifs at hr
    obtain rfl := Except.error.inj hr
    rfl

/-- The socket with what did not fit into the pool, if there is such a rest, in its queue. -/
def Socket.keep (s : Socket) : Option Entry → Socket
  | none => s
  | some e => s.unshift e

theorem moved_keep (s : Socket) (rest : Option Entry) : Moved s (s.keep rest) 0 rest.toList := by
  cases rest <;> exact ⟨rfl, rfl, rfl, rfl, rfl, rfl, rfl⟩

theorem length_read (p : Pool) {buffer : Buf} {off m : ℕ} (h : off + m ≤ buffer.length) :
    (buffer.read p off m).length = m := by
  cases buffer with
  | user bytes =>
    simp only [Buf.length] at h
    simp only [Buf.read, List.length_take, List.length_drop]
    omega
  | pool id => simp [Buf.read]
  | window id start stop => simp [Buf.read]

variable {kernel : Kernel} {n : State}

/-- The system call is not made, it fails, blocks, or takes a first part of what it is given. -/
theorem writeImpl_spec (kernel : Kernel) (n : State) (buffer : Buf) (off len : ℕ)
    (fd : Option ℕ) :
    (writeImpl kernel n buffer off len fd).1 = none ∨
      off + len ≤ buffer.length ∧
      ((kernel.write n.sock.calls len = .again ∧ writeImpl kernel n buffer off len fd =
          (some (if n.sock.unix then none else some 0),
            { n with sock := { n.sock with calls := n.sock.calls + 1 } })) ∨
        ∃ count, kernel.write n.sock.calls len = .wrote count ∧
          writeImpl kernel n buffer off len fd = (some (some (min count len)),
            { n with sock := { n.sock with
              calls := n.sock.calls + 1
              wire := n.sock.wire ++ buffer.read n.pool off (min count len)
              passed := if n.sock.unix then n.sock.passed ++ fd.toList else n.sock.passed } })) := by
  unfold writeImpl
  dsimp only
  by_cases hdata : n.sock.unix = true ∧ fd.any (· ≠ 0) = true ∧ (off ≥ buffer.length ∨ len = 0)
  · rw [if_pos hdata]
    exact .inl rfl
  rw [if_neg hdata]
  by_cases hbounds : off ≥ buffer.length ∨ off + len > buffer.length
  · rw [if_pos hbounds]
    exact .inl rfl
  rw [if_neg hbounds]
  have hle : off + len ≤ buffer.length := by omega
  cases kernel.write n.sock.calls len with
  | failed => exact .inl rfl
  | again => exact .inr ⟨hle, .inl ⟨rfl, rfl⟩⟩
  | wrote count => exact .inr ⟨hle, .inr ⟨count, rfl, rfl⟩⟩

/-- The socket has left what was put back in front of what it had queued. -/
theorem Moved.unshift {s s' : Socket} {m : ℕ} {front : List Entry} (h : Moved s s' m front)
    (e : Entry) : Moved s (s'.unshift e) m (e :: front) :=
  ⟨congrArg (e :: ·) h.queue, h.wire, h.unix, h.writable, h.connecting, h.destroyed, h.endOfFile⟩

/-- The state `s'` of the socket when a system call has said that it took `count`, `m` bytes. -/
structure Called (sys : Sys) (s s' : Socket) (len : ℕ) (fd : Option ℕ) (rest : List Entry)
    (count : Option ℕ) (m : ℕ) : Prop where
  moved : Moved s s' m rest
  fds : s'.queueFD = s.queueFD
  called : s'.called = s.called
  passed : s.unix = true → s'.passed = if sys = .again then s.passed else s.passed ++ fd.toList
  taken : count.getD 0 = m
  full : count = some len → m = len ∧ (s.unix = true → sys ≠ .again)
  part : count ≠ some len →
    ¬ sys.All len ∧ (sys = .again ∧ m = 0 ∨ ∃ n, sys = .wrote n ∧ n < len ∧ m = n)

theorem writeImpl_called (kernel : Kernel) (p : Pool) (s : Socket) (buffer : Buf) (off len : ℕ)
    (fd : Option ℕ) (rest : Option Entry) :
    (writeImpl kernel ⟨p, s.keep rest⟩ buffer off len fd).1 = none ∨
      off + len ≤ buffer.length ∧ ∃ count m s',
        writeImpl kernel ⟨p, s.keep rest⟩ buffer off len fd = (some count, ⟨p, s'⟩) ∧
          Called (kernel.write s.calls len) s s' len fd rest.toList count m := by
  have hkeep := moved_keep s rest
  have hcalls : (s.keep rest).calls = s.calls := by cases rest <;> rfl
  have hpassed : (s.keep rest).passed = s.passed := by cases rest <;> rfl
  have hcalled : (s.keep rest).called = s.called := by cases rest <;> rfl
  have hqueueFD : (s.keep rest).queueFD = s.queueFD := by cases rest <;> rfl
  rcases writeImpl_spec kernel ⟨p, s.keep rest⟩ buffer off len fd with
    hnone | ⟨hle, ⟨hsys, himpl⟩ | ⟨count, hsys, himpl⟩⟩
  · exact .inl hnone
  · dsimp only at hsys himpl
    rw [hcalls] at hsys
    refine .inr ⟨hle, _, 0, _, himpl, ⟨hkeep.queue, hkeep.wire, hkeep.unix, hkeep.writable,
      hkeep.connecting, hkeep.destroyed, hkeep.endOfFile⟩, hqueueFD, hcalled, fun _ => ?_, ?_,
      fun hfull => ⟨?_, fun hunix => ?_⟩, fun _ => ⟨?_, .inl ⟨hsys, rfl⟩⟩⟩
    · rw [hsys, if_pos rfl]
      exact hpassed
    · split_ifs <;> rfl
    · split_ifs at hfull
      exact Option.some.inj hfull
    · rw [hkeep.unix, if_pos hunix] at hfull
      exact absurd hfull nofun
    · rw [hsys]
      rintro ⟨n, hn, -⟩
      exact absurd hn nofun
  · dsimp only at hsys himpl
    rw [hcalls] at hsys
    have hle' : off + min count len ≤ buffer.length := by omega
    refine .inr ⟨hle, _, min count len, _, himpl, ⟨hkeep.queue, ?_, hkeep.unix, hkeep.writable,
      hkeep.connecting, hkeep.destroyed, hkeep.endOfFile⟩, hqueueFD, hcalled, fun hunix => ?_, rfl,
      fun hfull => ⟨Option.some.inj hfull, fun _ => ?_⟩, fun hpart => ?_⟩
    · dsimp only
      rw [List.length_append, length_read p hle', hkeep.wire]
      omega
    · have hne : Sys.wrote count ≠ .again := nofun
      rw [hsys, if_neg hne]
      dsimp only
      rw [hkeep.unix, if_pos hunix, hpassed]
    · rw [hsys]
      nofun
    · have hlt : count < len := by
        by_contra hge
        exact hpart (congrArg some (by omega))
      rw [hsys]
      refine ⟨?_, .inr ⟨count, rfl, hlt, by omega⟩⟩
      rintro ⟨n, hn, hn'⟩
      obtain rfl := Sys.wrote.inj hn
      omega

theorem destroyed_destroy (n : State) :
    (destroy n).sock.destroyed = true ∧ (destroy n).sock.writable = false := ⟨rfl, rfl⟩

/-- A part of a Buffer is handed over, and with it goes a string of which `rest` did not fit. -/
theorem send_outcome (kernel : Kernel) (p : Pool) (s : Socket) (buffer : Buf) (off len : ℕ)
    (fd : Option ℕ) (cb : Option Callback) {rest : Option Entry} (hrest : ∀ e ∈ rest, e.cb = cb)
    {r : Except Exc Bool} {n' : State}
    (h : send kernel ⟨p, s.keep rest⟩ buffer off len fd cb rest.isSome = (r, n')) :
    (r = .ok false ∧ Dead n') ∨
      Outcome (kernel.write s.calls len) s (len + queuedSize rest.toList) len rest.isNone fd cb r
        n'.sock := by
  unfold send at h
  rcases writeImpl_called kernel p s buffer off len fd rest with
    hnone | ⟨hle, count, m, s', himpl, hcalled⟩
  · left
    generalize writeImpl kernel ⟨p, s.keep rest⟩ buffer off len fd = x at h hnone
    obtain ⟨count, n⟩ := x
    obtain rfl : count = none := hnone
    obtain ⟨rfl, rfl⟩ := Prod.mk.inj h
    exact ⟨rfl, destroyed_destroy n⟩
  · right
    rw [himpl] at h
    dsimp only at h
    by_cases hfull : count = some len
    · rw [if_pos hfull] at h
      obtain ⟨rfl, hagain⟩ := hcalled.full hfull
      have hpassed : s.unix = true → s'.passed = s.passed ++ fd.toList := fun hunix => by
        rw [hcalled.passed hunix, if_neg (hagain hunix)]
      have hsock : (if buffer = .pool p.current then
          (⟨{ p with used := p.used - m }, s'⟩ : State) else ⟨p, s'⟩).sock = s' := by
        split_ifs <;> rfl
      generalize (if buffer = .pool p.current then
          (⟨{ p with used := p.used - m }, s'⟩ : State) else ⟨p, s'⟩) = n₁ at h hsock
      subst hsock
      cases rest with
      | none =>
        have hmoved : Moved s n₁.sock (m + 0) [] := hcalled.moved
        have hcb := hcalled.called
        match cb, h with
        | none, h =>
          obtain ⟨rfl, rfl⟩ := Prod.mk.inj h
          exact .whole rfl hmoved hcalled.fds hpassed (hcb.trans (List.append_nil _).symm) rfl
        | some (.user id), h =>
          obtain ⟨rfl, rfl⟩ := Prod.mk.inj h
          refine .whole rfl ⟨hmoved.queue, hmoved.wire, hmoved.unix, hmoved.writable,
            hmoved.connecting, hmoved.destroyed, hmoved.endOfFile⟩ hcalled.fds hpassed ?_ rfl
          exact congrArg (· ++ [id]) hcb
        | some .merged, h =>
          obtain ⟨rfl, rfl⟩ := Prod.mk.inj h
          exact .whole rfl hmoved hcalled.fds hpassed (hcb.trans (List.append_nil _).symm) rfl
      | some e =>
        obtain ⟨rfl, rfl⟩ := Prod.mk.inj h
        exact .rest rfl hcalled.moved rfl (hrest e rfl) hcalled.fds hpassed hcalled.called
    · rw [if_neg hfull] at h
      obtain ⟨hall, htaken⟩ := hcalled.part hfull
      have hm : m ≤ len := by omega
      have hsize := length_slice buffer (s := off + m) hle
      rw [hcalled.taken] at h
      obtain ⟨rfl, rfl⟩ := Prod.mk.inj h
      have hmoved := hcalled.moved.unshift ⟨.buf (buffer.slice (off + m) (off + len)), none, cb⟩
      have hleft : m + queuedSize (⟨.buf (buffer.slice (off + m) (off + len)), none, cb⟩ ::
          rest.toList) = len + queuedSize rest.toList := by
        rw [queuedSize_cons]
        unfold Entry.size Data.size
        dsimp only
        omega
      have hcb : ∀ e ∈ (⟨.buf (buffer.slice (off + m) (off + len)), none, cb⟩ : Entry) ::
          rest.toList, e.cb = cb := by
        refine List.forall_mem_cons.mpr ⟨rfl, fun e he => hrest e ?_⟩
        exact Option.mem_toList.mp he
      have hlength : ((⟨.buf (buffer.slice (off + m) (off + len)), none, cb⟩ : Entry) ::
          rest.toList).length = if rest.isNone = true then 1 else 2 := by
        cases rest <;> rfl
      have hfirst : ∃ e ∈ ((⟨.buf (buffer.slice (off + m) (off + len)), none, cb⟩ : Entry) ::
          rest.toList).head?, m + e.size = len := by
        refine ⟨_, rfl, ?_⟩
        unfold Entry.size Data.size
        dsimp only
        omega
      unfold Socket.unshiftLeft
      dsimp only
      by_cases hzero : m = 0
      · rw [if_pos hzero]
        refine .left hall ⟨hmoved.queue, hmoved.wire, hmoved.unix, hmoved.writable,
          hmoved.connecting, hmoved.destroyed, hmoved.endOfFile⟩ hleft hcb hlength hfirst ?_ htaken
          hcalled.passed hcalled.called
        rw [if_pos hzero]
        exact congrArg (fd :: ·) hcalled.fds
      · rw [if_neg hzero]
        refine .left hall hmoved hleft hcb hlength hfirst ?_ htaken hcalled.passed hcalled.called
        rw [if_neg hzero]
        exact hcalled.fds

/-- What was written to the pool and what did not fit stand for the whole string. -/
theorem written_add_rest {s : JSString} {p : Pool} {e : Encoding} {w : Written}
    (h : bufferWrite kPoolSize s p.ensure.used e = .ok w) :
    w.written + (encode e (s.drop w.charsWritten)).length = (encode e s).length := by
  by_cases he : e = .base64
  · subst he
    obtain ⟨hchars, -⟩ := base64_written h
    rw [hchars, List.drop_length, encode_nil, List.length_nil, Nat.add_zero]
    unfold bufferWrite at h
    dsimp only at h
    cases hb : Base64.base64Write kPoolSize s p.ensure.used with
    | error err =>
      rw [hb] at h
      exact absurd h nofun
    | ok stored =>
      rw [hb] at h
      obtain rfl := Except.ok.inj h
      rcases (Base64.base64Write_ok_iff ..).mp hb with ⟨-, hzero, -⟩ | ⟨-, -, rfl⟩
      · exact absurd hzero (by decide)
      · rfl
  · obtain ⟨w', hw', hexact⟩ := bufferWrite_exact he kPoolSize s p.ensure.used
    obtain rfl := Except.ok.inj (h.symm.trans hw')
    rw [hexact.written_eq, ← List.length_append, ← encode_append he, List.take_append_drop]

theorem charsWritten_le {s : JSString} {off : ℕ} {e : Encoding} {w : Written}
    (h : bufferWrite kPoolSize s off e = .ok w) : w.charsWritten ≤ s.length := by
  by_cases he : e = .base64
  · subst he
    exact Nat.le_of_eq (base64_written h).1
  · obtain ⟨w', hw', hexact⟩ := bufferWrite_exact he kPoolSize s off
    obtain rfl := Except.ok.inj (h.symm.trans hw')
    rw [hexact.charsWritten_eq]
    exact Lib.fit_le_length ..

/-- All of an item is offered, or some of a string that does not fit. -/
theorem offer_size {p : Pool} {data : Data} {encoding : EncArg} {len : ℕ} {whole : Bool}
    (h : offer p encoding data = some (len, whole)) :
    (whole = true → len = data.size encoding) ∧ (whole = false → len ≠ 0) := by
  unfold offer at h
  cases data with
  | buf buffer =>
    obtain ⟨rfl, rfl⟩ := Prod.mk.inj (Option.some.inj h)
    exact ⟨fun _ => rfl, nofun⟩
  | str s =>
    dsimp only at h
    cases hwrite : bufferWrite kPoolSize s p.ensure.used encoding.encoding with
    | error err =>
      rw [hwrite] at h
      exact absurd h nofun
    | ok w =>
      rw [hwrite] at h
      have hsize := written_add_rest hwrite
      dsimp only at h
      by_cases hzero : s.length > 0 ∧ w.written = 0
      · rw [if_pos hzero] at h
        exact absurd h nofun
      · rw [if_neg hzero] at h
        obtain ⟨rfl, rfl⟩ := Prod.mk.inj (Option.some.inj h)
        refine ⟨fun hwhole => ?_, fun hwhole hwritten => ?_⟩
        · rw [of_decide_eq_true hwhole, List.drop_length, encode_nil] at hsize
          exact hsize
        · have hne := of_decide_eq_false hwhole
          have hle := charsWritten_le hwrite
          exact hzero ⟨by omega, hwritten⟩

/-- A string that another one is concatenated onto does not lose bytes. -/
theorem encode_length_le (e : Encoding) (s t : JSString) :
    (encode e s).length ≤ (encode e (s ++ t)).length := by
  by_cases he : e = .base64
  · subst he
    unfold encode
    dsimp only
    rw [Base64.decode_eq, Base64.decode_eq, Base64.length_decodeDigits, Base64.length_decodeDigits]
    have hsub : (Base64.alphabet (asciiValue s)).length ≤
        (Base64.alphabet (asciiValue (s ++ t))).length := by
      unfold Base64.alphabet asciiValue
      rw [List.map_append, List.filter_append, List.length_append]
      exact Nat.le_add_right _ _
    omega
  · rw [encode_append he, List.length_append]
    exact Nat.le_add_right _ _

/-- The socket after `flush` has taken `e` from its queue. -/
def Socket.shift (s : Socket) (e : Entry) (queue : List Entry) : Socket :=
  { s with
    queue := queue
    queueFD := s.queueFD.tail
    bufferSize := s.bufferSize - e.data.length }

/-- A round of `flush` is one `_writeOut`. -/
theorem flushRounds_one {e : Entry} {queue : List Entry} (hqueue : n.sock.queue = e :: queue) :
    flushRounds kernel 1 n = writeOut kernel { n with sock := n.sock.shift e queue } e.data
      e.encoding n.sock.queueFD.head?.join e.cb := by
  unfold flushRounds Socket.shift
  rw [hqueue]
  dsimp only
  split
  · rename_i n' hn'
    rw [hn']
    rfl
  · rfl

theorem writeOut_none (kernel : Kernel) (hw : n.sock.writable = true) {data : Data}
    {encoding : EncArg} (h : offer n.pool encoding data = none) (fd : Option ℕ)
    (cb : Option Callback) :
    ∃ e, (writeOut kernel n data encoding fd cb).1 = .error e ∧ e.drops = true ∧
      (writeOut kernel n data encoding fd cb).2.sock = n.sock := by
  cases data with
  | buf buffer => exact absurd h nofun
  | str s =>
    unfold offer at h
    unfold writeOut
    rw [if_neg (by simp [hw])]
    dsimp only at h ⊢
    cases hwrite : bufferWrite kPoolSize s n.pool.ensure.used encoding.encoding with
    | error err => exact ⟨_, rfl, rfl, rfl⟩
    | ok w =>
      rw [hwrite] at h
      dsimp only at h ⊢
      by_cases hzero : s.length > 0 ∧ w.written = 0
      · rw [if_pos hzero]
        exact ⟨_, rfl, rfl, rfl⟩
      · rw [if_neg hzero] at h
        exact absurd h nofun

theorem writeOut_outcome (kernel : Kernel) (hw : n.sock.writable = true) {data : Data}
    {encoding : EncArg} {len : ℕ} {whole : Bool}
    (h : offer n.pool encoding data = some (len, whole)) (fd : Option ℕ) (cb : Option Callback) :
    ((writeOut kernel n data encoding fd cb).1 = .ok false ∧
      Dead (writeOut kernel n data encoding fd cb).2) ∨
      Outcome (kernel.write n.sock.calls len) n.sock (data.size encoding) len whole fd cb
        (writeOut kernel n data encoding fd cb).1
        (writeOut kernel n data encoding fd cb).2.sock := by
  unfold offer at h
  unfold writeOut
  rw [if_neg (by simp [hw])]
  cases data with
  | buf buffer =>
    obtain ⟨rfl, rfl⟩ := Prod.mk.inj (Option.some.inj h)
    have hrest : ∀ e ∈ (none : Option Entry), e.cb = cb := by simp
    exact send_outcome kernel n.pool n.sock buffer 0 buffer.length fd cb hrest rfl
  | str s =>
    dsimp only at h ⊢
    cases hwrite : bufferWrite kPoolSize s n.pool.ensure.used encoding.encoding with
    | error err =>
      rw [hwrite] at h
      exact absurd h nofun
    | ok w =>
      rw [hwrite] at h
      have hsize := written_add_rest hwrite
      dsimp only at h ⊢
      by_cases hzero : s.length > 0 ∧ w.written = 0
      · rw [if_pos hzero] at h
        exact absurd h nofun
      · rw [if_neg hzero] at h ⊢
        obtain ⟨rfl, rfl⟩ := Prod.mk.inj (Option.some.inj h)
        by_cases hchars : w.charsWritten = s.length
        · have hrest : ∀ e ∈ (none : Option Entry), e.cb = cb := by simp
          rw [hchars, List.drop_length, encode_nil, List.length_nil] at hsize
          rw [if_neg (not_not.mpr hchars), decide_eq_true hchars]
          unfold Data.size
          dsimp only
          rw [← hsize]
          exact send_outcome kernel _ n.sock _ _ w.written fd cb hrest rfl
        · have hrest : ∀ e ∈ some (⟨.str (s.drop w.charsWritten), encoding, cb⟩ : Entry),
              e.cb = cb := by simp
          have hkept : w.written + queuedSize [⟨.str (s.drop w.charsWritten), encoding, cb⟩] =
              (encode encoding.encoding s).length := by
            rw [queuedSize_cons, queuedSize_nil, Nat.add_zero]
            exact hsize
          rw [if_pos hchars, decide_eq_false hchars]
          unfold Data.size
          dsimp only
          rw [← hkept]
          exact send_outcome kernel _ n.sock _ _ w.written fd cb hrest rfl

end NodeJS.Net
