import NodeJS.Net.Socket

/-! What a socket has taken and not yet passed on to the kernel is in its write queue, whole
and in order. -/
namespace NodeJS.Net

def Data.bytes (p : Pool) (encoding : EncArg) : Data → Bytes
  | .str s => encode encoding.encoding s
  | .buf b => b.bytes p

def Entry.bytes (p : Pool) (e : Entry) : Bytes := e.data.bytes p e.encoding

def pending (p : Pool) (queue : List Entry) : Bytes := queue.flatMap (Entry.bytes p)

def queuedLength (queue : List Entry) : ℤ := (queue.map fun e => (e.data.length : ℤ)).sum

/-- Data that can be queued: not empty, in an encoding that works unit by unit, in memory that
does not change. -/
def Data.Good (p : Pool) (encoding : EncArg) : Data → Prop
  | .str s => s ≠ [] ∧ encoding.encoding ≠ .base64
  | .buf b => b.length ≠ 0 ∧ b.Frozen p

def Entry.Good (p : Pool) (e : Entry) : Prop := e.data.Good p e.encoding

@[simp] theorem pending_nil (p : Pool) : pending p [] = [] := rfl

@[simp] theorem pending_cons (p : Pool) (e : Entry) (q : List Entry) :
    pending p (e :: q) = e.bytes p ++ pending p q := by
  simp [pending]

@[simp] theorem pending_append (p : Pool) (q q' : List Entry) :
    pending p (q ++ q') = pending p q ++ pending p q' := by
  simp [pending]

@[simp] theorem queuedLength_nil : queuedLength [] = 0 := rfl

@[simp] theorem queuedLength_cons (e : Entry) (q : List Entry) :
    queuedLength (e :: q) = e.data.length + queuedLength q := by
  simp [queuedLength]

@[simp] theorem queuedLength_append (q q' : List Entry) :
    queuedLength (q ++ q') = queuedLength q + queuedLength q' := by
  simp [queuedLength]

theorem Entry.Good.keeps {p p' : Pool} {e : Entry} (h : e.Good p) (hp : p.Keeps p') :
    e.Good p' ∧ e.bytes p' = e.bytes p := by
  obtain ⟨data, encoding, cb⟩ := e
  cases data with
  | str s => exact ⟨h, rfl⟩
  | buf b =>
    obtain ⟨hf, hb⟩ := Buf.Frozen.keeps h.2 hp
    exact ⟨⟨h.1, hf⟩, hb⟩

theorem pending_keeps {p p' : Pool} {q : List Entry} (h : ∀ e ∈ q, e.Good p) (hp : p.Keeps p') :
    pending p' q = pending p q := by
  unfold pending
  apply List.flatMap_congr
  intro e he
  exact ((h e he).keeps hp).2

/-- `n'` is `n` after `bytes` were handed over, `front` being what the kernel did not take of
them. `p` is the pool before. -/
structure Sent (p : Pool) (n n' : State) (bytes : Bytes) (front : List Entry) : Prop where
  queue_eq : n'.sock.queue = front ++ n.sock.queue
  wire_eq : n'.sock.wire ++ pending n'.pool front = n.sock.wire ++ bytes
  size_eq : n'.sock.bufferSize = n.sock.bufferSize + queuedLength front
  good : ∀ e ∈ front, e.Good n'.pool
  keeps : p.Keeps n'.pool
  writable_eq : n'.sock.writable = n.sock.writable
  connecting_eq : n'.sock.connecting = n.sock.connecting
  destroyed_eq : n'.sock.destroyed = n.sock.destroyed
  endOfFile_eq : n'.sock.endOfFile = n.sock.endOfFile

/-- A system call inside the bounds of its buffer: it fails, or it takes a first part. -/
theorem writeImpl_cases (kernel : Kernel) (n : State) {buffer : Buf} {off len : ℕ}
    (fd : Option ℕ) (hlen : 0 < len) (hb : off + len ≤ buffer.length) :
    (∃ n', writeImpl kernel n buffer off len fd = (none, n')) ∨
    ∃ count n', writeImpl kernel n buffer off len fd = (some count, n') ∧ count.getD 0 ≤ len ∧
      ∃ passed calls, n' = { n with sock := { n.sock with
        wire := n.sock.wire ++ buffer.read n.pool off (count.getD 0)
        passed := passed
        calls := calls } } := by
  have hread : buffer.read n.pool off 0 = [] := by
    cases buffer <;> simp [Buf.read]
  have h₁ : ¬ (n.sock.unix = true ∧ fd.any (· ≠ 0) = true ∧ (off ≥ buffer.length ∨ len = 0)) := by
    omega
  have h₂ : ¬ (off ≥ buffer.length ∨ off + len > buffer.length) := by omega
  unfold writeImpl
  dsimp only
  rw [if_neg h₁, if_neg h₂]
  cases hsys : kernel.write n.sock.calls len with
  | failed => exact Or.inl ⟨_, rfl⟩
  | again =>
    refine Or.inr ⟨_, _, rfl, ?_, n.sock.passed, n.sock.calls + 1, ?_⟩
    · split_ifs <;> simp
    · split_ifs <;> simp [hread]
  | wrote count =>
    exact Or.inr ⟨_, _, rfl, Nat.min_le_right .., _, _, rfl⟩

theorem Sent.runCallback {p : Pool} {n n' : State} {bytes : Bytes} {front : List Entry}
    (h : Sent p n n' bytes front) (cb : Option Callback) :
    Sent p n (runCallback n' cb).2 bytes front := by
  unfold Net.runCallback
  split
  · exact h
  · exact ⟨h.queue_eq, h.wire_eq, h.size_eq, h.good, h.keeps, h.writable_eq, h.connecting_eq,
      h.destroyed_eq, h.endOfFile_eq⟩
  · exact h

/-- Outcome of handing over `bytes`: the socket is gone, or what is left of them is queued. -/
def Handed (p : Pool) (n : State) (bytes : Bytes) (result : Except Exc Bool × State) : Prop :=
  (result.2.sock.destroyed = true ∧ result.2.sock.writable = false) ∨
  ∃ front, Sent p n result.2 bytes front ∧ (result.1 = .ok true → front = [])

/-- The kernel has taken a part of the buffer that is not all of it. -/
theorem send_leftOver {p : Pool} {n n₁ : State} {buffer : Buf} {off len m : ℕ}
    (fd : Option ℕ) (cb : Option Callback) (hm : m ≤ len) (hne : m ≠ len)
    (hb : off + len ≤ buffer.length) (h₁ : Sent p n n₁ (buffer.read n₁.pool off m) [])
    (hleft : (buffer.slice (off + m) (off + len)).Frozen n₁.pool) :
    Handed p n (buffer.read n₁.pool off len)
      (.ok false, { n₁ with
        sock := n₁.sock.unshiftLeft (buffer.slice (off + m) (off + len)) cb m fd }) := by
  have hbytes := bytes_slice n₁.pool buffer (s := off + m) hb
  have hlength := length_slice buffer (s := off + m) hb
  have hsplit := read_append n₁.pool buffer off hm
  rw [Nat.add_sub_add_left] at hbytes hlength
  have hsent : Sent p n
      ⟨n₁.pool, n₁.sock.unshift ⟨.buf (buffer.slice (off + m) (off + len)), none, cb⟩⟩
      (buffer.read n₁.pool off len)
      [⟨.buf (buffer.slice (off + m) (off + len)), none, cb⟩] := by
    refine ⟨?_, ?_, ?_, ?_, h₁.keeps, h₁.writable_eq, h₁.connecting_eq, h₁.destroyed_eq,
      h₁.endOfFile_eq⟩
    · simp [Socket.unshift, h₁.queue_eq]
    · have hw := h₁.wire_eq
      rw [pending_nil, List.append_nil] at hw
      simp only [Socket.unshift, pending_cons, pending_nil, List.append_nil, Entry.bytes,
        Data.bytes]
      rw [hw, hbytes, List.append_assoc, hsplit]
    · simp [Socket.unshift, h₁.size_eq]
    · intro e he
      rw [List.mem_singleton] at he
      subst he
      refine ⟨?_, hleft⟩
      omega
  right
  refine ⟨[⟨.buf (buffer.slice (off + m) (off + len)), none, cb⟩], ?_, fun h => by cases h⟩
  unfold Socket.unshiftLeft
  dsimp only
  split_ifs
  · exact ⟨hsent.queue_eq, hsent.wire_eq, hsent.size_eq, hsent.good, hsent.keeps,
      hsent.writable_eq, hsent.connecting_eq, hsent.destroyed_eq, hsent.endOfFile_eq⟩
  · exact hsent

theorem send_handed (kernel : Kernel) (p : Pool) (n : State) {buffer : Buf} {off len : ℕ}
    (fd : Option ℕ) (cb : Option Callback) (queuedData : Bool) (hlen : 0 < len)
    (hb : off + len ≤ buffer.length) (hp : p.Keeps n.pool)
    (hfull : buffer = .pool n.pool.current → p.Keeps { n.pool with used := n.pool.used - len })
    (hleft : ∀ s, off ≤ s → (buffer.slice s (off + len)).Frozen n.pool) :
    Handed p n (buffer.read n.pool off len) (send kernel n buffer off len fd cb queuedData) ∧
    (queuedData = true → (send kernel n buffer off len fd cb queuedData).1 ≠ .ok true) := by
  unfold send
  rcases writeImpl_cases kernel n fd hlen hb with
    ⟨n', hn'⟩ | ⟨count, n₁, hn', hle, passed, calls, hn₁⟩
  · rw [hn']
    exact ⟨Or.inl ⟨rfl, rfl⟩, fun _ h => by cases h⟩
  · have hpool : n₁.pool = n.pool := by rw [hn₁]
    have h₁ : Sent p n n₁ (buffer.read n₁.pool off (count.getD 0)) [] := by
      rw [hn₁]
      exact ⟨rfl, by simp, by simp, by simp, hp, rfl, rfl, rfl, rfl⟩
    rw [hn']
    dsimp only
    by_cases hcount : count = some len
    · rw [if_pos hcount]
      rw [hcount, Option.getD_some, hpool] at h₁
      have h₂ : Sent p n (if buffer = .pool n₁.pool.current then
          { n₁ with pool := { n₁.pool with used := n₁.pool.used - len } } else n₁)
          (buffer.read n.pool off len) [] := by
        split_ifs with hbuf
        · rw [hpool] at hbuf ⊢
          exact ⟨h₁.queue_eq, h₁.wire_eq, h₁.size_eq, by simp, hfull hbuf, h₁.writable_eq,
            h₁.connecting_eq, h₁.destroyed_eq, h₁.endOfFile_eq⟩
        · exact h₁
      cases queuedData with
      | true => exact ⟨Or.inr ⟨[], h₂, fun _ => rfl⟩, fun _ h => by cases h⟩
      | false => exact ⟨Or.inr ⟨[], h₂.runCallback cb, fun _ => rfl⟩, fun h => by cases h⟩
    · rw [if_neg hcount]
      have hne : count.getD 0 ≠ len := by
        cases count with
        | none => exact Nat.ne_of_lt hlen
        | some m => exact fun h => hcount (congrArg some h)
      have hfrozen : (buffer.slice (off + count.getD 0) (off + len)).Frozen n₁.pool := by
        rw [hpool]
        exact hleft _ (Nat.le_add_right ..)
      rw [← hpool]
      exact ⟨send_leftOver fd cb hle hne hb h₁ hfrozen, fun _ h => by cases h⟩

/-- What `pool.write` has done with a first part of a string. -/
structure Placed (p : Pool) (s : JSString) (e : Encoding) (w : Written) : Prop where
  write_eq : bufferWrite kPoolSize s p.used e = .ok w
  written_pos : 0 < w.written
  fits : p.used + w.written ≤ kPoolSize
  chars_le : w.charsWritten ≤ s.length
  written_le : w.written ≤ w.stored.length
  stored_take : w.stored.take w.written = encode e (s.take w.charsWritten)

theorem exists_placed {p : Pool} (hroom : p.used + kMinPoolSpace ≤ kPoolSize) {s : JSString}
    {e : Encoding} (hs : s ≠ []) (he : e ≠ .base64) : ∃ w, Placed p s e w := by
  obtain ⟨w, hbw, hexact⟩ := bufferWrite_exact he kPoolSize s p.used
  have hchars := hexact.charsWritten_eq
  have hwritten := hexact.written_eq
  have hpos : 0 < w.charsWritten := by
    rw [hchars]
    apply Lib.fit_pos _ hs
    intro c
    have := length_unitBytes_le e c
    simp only [kMinPoolSpace] at hroom
    omega
  have hne : s.take w.charsWritten ≠ [] := by
    rw [ne_eq, List.take_eq_nil_iff, not_or]
    exact ⟨hpos.ne', hs⟩
  have hlen : 0 < w.written := by
    rw [hwritten]
    exact List.length_pos_iff.mpr (encode_ne_nil he hne)
  have hfit := Lib.length_flatMap_take_fit_le (unitBytes e) (kPoolSize - p.used) s
  rw [← hchars, ← encode_eq_flatMap he, ← hwritten] at hfit
  have hstored := congrArg List.length hexact.stored_take
  rw [List.length_take, ← hwritten] at hstored
  refine ⟨w, hbw, hlen, by omega, ?_, by omega, hexact.stored_take⟩
  rw [hchars]
  exact Lib.fit_le_length ..

/-- `pool.used += bytesWritten` -/
def Pool.place (p : Pool) (w : Written) : Pool :=
  { p.store w.stored with used := (p.store w.stored).used + w.written }

/-- The placed part on its way to the kernel, from any state of the socket. -/
theorem send_placed (kernel : Kernel) {p₀ p : Pool} {s : JSString} {e : Encoding} {w : Written}
    (h : Placed p s e w) (hp : p₀.Keeps p) (hcount : p.count ≠ 0) (sock : Socket)
    (fd : Option ℕ) (cb : Option Callback) (queuedData : Bool) :
    Handed p₀ ⟨p.place w, sock⟩ (encode e (s.take w.charsWritten))
      (send kernel ⟨p.place w, sock⟩ (.pool (p.place w).current) p.used w.written fd cb
        queuedData) ∧
    (queuedData = true → (send kernel ⟨p.place w, sock⟩ (.pool (p.place w).current) p.used
      w.written fd cb queuedData).1 ≠ .ok true) := by
  have hkeeps : p₀.Keeps (p.store w.stored) := hp.trans (keeps_store _ _)
  have hfull : { p.place w with used := (p.place w).used - w.written } = p.store w.stored := by
    simp [Pool.place]
  have hread : (Buf.pool (p.place w).current).read (p.place w) p.used w.written =
      encode e (s.take w.charsWritten) := by
    rw [← h.stored_take]
    exact read_store (p := p) h.written_le
  rw [← hread]
  apply send_handed
  · exact h.written_pos
  · exact h.fits
  · exact hkeeps.trans (keeps_advance _ _)
  · intro _
    dsimp only
    rw [hfull]
    exact hkeeps
  · intro off _ i _ hi
    exact ⟨Nat.sub_lt (Nat.pos_of_ne_zero hcount) one_pos, fun _ => hi⟩

/-- A string goes into the pool as far as it fits; what does not fit is queued behind what the
kernel does not take. -/
theorem writeOut_str (kernel : Kernel) (n : State) {s : JSString} {encoding : EncArg}
    (fd : Option ℕ) (cb : Option Callback) (hw : n.sock.writable = true) (hs : s ≠ [])
    (he : encoding.encoding ≠ .base64) :
    Handed n.pool n (encode encoding.encoding s)
      (writeOut kernel n (.str s) encoding fd cb) := by
  obtain ⟨hcount, hroom⟩ := ensure_room n.pool
  obtain ⟨w, hplaced⟩ := exists_placed hroom hs he
  have hsend := send_placed kernel hplaced (keeps_ensure n.pool) hcount
  have hpos := hplaced.written_pos
  unfold writeOut
  rw [if_neg (by simp [hw])]
  dsimp only
  rw [hplaced.write_eq]
  dsimp only
  rw [if_neg (by omega)]
  by_cases hall : w.charsWritten = s.length
  · rw [if_neg (not_not.mpr hall)]
    have h := (hsend n.sock fd cb false).1
    rw [hall, List.take_length] at h
    rcases h with h | ⟨front, hsent, hr⟩
    · exact Or.inl h
    · exact Or.inr ⟨front, ⟨hsent.queue_eq, hsent.wire_eq, hsent.size_eq, hsent.good, hsent.keeps,
        hsent.writable_eq, hsent.connecting_eq, hsent.destroyed_eq, hsent.endOfFile_eq⟩, hr⟩
  · rw [if_pos hall]
    obtain ⟨h, hfalse⟩ :=
      hsend (n.sock.unshift ⟨.str (s.drop w.charsWritten), encoding, cb⟩) fd cb true
    rcases h with h | ⟨front, hsent, hr⟩
    · exact Or.inl h
    · right
      refine ⟨front ++ [⟨.str (s.drop w.charsWritten), encoding, cb⟩], ⟨?_, ?_, ?_, ?_,
        hsent.keeps, hsent.writable_eq, hsent.connecting_eq, hsent.destroyed_eq,
        hsent.endOfFile_eq⟩, fun htrue => absurd htrue (hfalse rfl)⟩
      · apply hsent.queue_eq.trans
        simp [Socket.unshift]
      · have hsplit : encode encoding.encoding s = encode encoding.encoding (s.take w.charsWritten)
            ++ encode encoding.encoding (s.drop w.charsWritten) := by
          rw [← encode_append he, List.take_append_drop]
        rw [pending_append, ← List.append_assoc]
        apply (congrArg (· ++ _) hsent.wire_eq).trans
        simp [Socket.unshift, Entry.bytes, Data.bytes, hsplit]
      · apply hsent.size_eq.trans
        simp only [Socket.unshift, queuedLength_append, queuedLength_cons, queuedLength_nil]
        omega
      · intro e hmem
        rcases List.mem_append.mp hmem with hmem | hmem
        · exact hsent.good e hmem
        · rw [List.mem_singleton] at hmem
          subst hmem
          refine ⟨?_, he⟩
          have := hplaced.chars_le
          rw [ne_eq, List.drop_eq_nil_iff]
          omega

theorem writeOut_handed (kernel : Kernel) (n : State) {data : Data} {encoding : EncArg}
    (fd : Option ℕ) (cb : Option Callback) (hw : n.sock.writable = true)
    (hd : data.Good n.pool encoding) :
    Handed n.pool n (data.bytes n.pool encoding) (writeOut kernel n data encoding fd cb) := by
  cases data with
  | str s => exact writeOut_str kernel n fd cb hw hd.1 hd.2
  | buf buffer =>
    unfold writeOut
    rw [if_neg (by simp [hw])]
    refine (send_handed kernel n.pool n fd cb false (Nat.pos_of_ne_zero hd.1) (by simp)
      (Pool.Keeps.refl _) (fun hbuf => ?_) (fun s _ => ?_)).1
    · exact absurd hd.2 (by simp [hbuf, Buf.Frozen])
    · rw [Nat.zero_add]
      exact hd.2.slice le_rfl

/-- `taken` is what the socket was asked to write. What the kernel has not accepted of it is in
the queue, and nothing else is. -/
structure Live (n : State) (taken : Bytes) : Prop where
  wire_eq : n.sock.wire ++ pending n.pool n.sock.queue = taken
  size_eq : n.sock.bufferSize = queuedLength n.sock.queue
  good : ∀ e ∈ n.sock.queue, e.Good n.pool
  writable : n.sock.writable = true
  endOfFile : n.sock.endOfFile = false

def Dead (n : State) : Prop := n.sock.destroyed = true ∧ n.sock.writable = false

def Inv (n : State) (taken : Bytes) : Prop := Dead n ∨ Live n taken

/-- After a hand-over the remainder stands in front of what was queued before. -/
theorem Live.handed {n : State} {taken bytes : Bytes} (h : Live n taken)
    {result : Except Exc Bool × State} (hr : Handed n.pool n bytes result) :
    Inv result.2 (n.sock.wire ++ bytes ++ pending n.pool n.sock.queue) := by
  rcases hr with hdead | ⟨front, hsent, _⟩
  · exact Or.inl hdead
  · right
    have hkeep := pending_keeps h.good hsent.keeps
    refine ⟨?_, ?_, ?_, hsent.writable_eq.trans h.writable, hsent.endOfFile_eq.trans h.endOfFile⟩
    · rw [hsent.queue_eq, pending_append, ← List.append_assoc, hsent.wire_eq, hkeep]
    · rw [hsent.size_eq, hsent.queue_eq, queuedLength_append, h.size_eq]
      omega
    · intro e he
      rw [hsent.queue_eq] at he
      rcases List.mem_append.mp he with he | he
      · exact hsent.good e he
      · exact ((h.good e he).keeps hsent.keeps).1

theorem Dead.writeOut {n : State} (h : Dead n) (kernel : Kernel) (data : Data)
    (encoding : EncArg) (fd : Option ℕ) (cb : Option Callback) :
    writeOut kernel n data encoding fd cb = (.error .notWritable, n) := by
  unfold Net.writeOut
  rw [if_pos h.2]

theorem Dead.shutdown {n : State} (h : Dead n) (kernel : Kernel) :
    shutdown kernel n = (.error .notWritable, n) := by
  unfold Net.shutdown
  rw [if_pos h.2]

theorem Dead.flushRounds {n : State} (h : Dead n) (kernel : Kernel) (fuel : ℕ) :
    Dead (flushRounds kernel fuel n).2 := by
  cases fuel with
  | zero => exact h
  | succ fuel =>
    unfold Net.flushRounds
    split
    · split_ifs
      · have hdead : Dead { n with sock := { n.sock with endOfFile := false } } := h
        dsimp only
        rw [hdead.shutdown]
        exact hdead
      · exact h
    · rename_i e queue _
      have hdead : Dead { n with sock := { n.sock with
          queue := queue
          queueFD := n.sock.queueFD.tail
          bufferSize := n.sock.bufferSize - e.data.length } } := h
      dsimp only
      rw [hdead.writeOut]
      exact hdead

theorem Inv.flushRounds {n : State} {taken : Bytes} (h : Inv n taken) (kernel : Kernel)
    (fuel : ℕ) : Inv (flushRounds kernel fuel n).2 taken := by
  induction fuel generalizing n with
  | zero => exact h
  | succ fuel ih =>
    rcases h with hdead | hlive
    · exact Or.inl (hdead.flushRounds kernel _)
    · cases hq : n.sock.queue with
      | nil =>
        simp only [Net.flushRounds, hq, hlive.endOfFile]
        exact Or.inr hlive
      | cons e queue =>
        have hwire := hlive.wire_eq
        have hsize := hlive.size_eq
        rw [hq, pending_cons, ← List.append_assoc] at hwire
        rw [hq, queuedLength_cons] at hsize
        have hgood : ∀ e' ∈ e :: queue, e'.Good n.pool := hq ▸ hlive.good
        let n₁ : State := { n with sock := { n.sock with
          queue := queue
          queueFD := n.sock.queueFD.tail
          bufferSize := n.sock.bufferSize - e.data.length } }
        have h₁ : Live n₁ (n.sock.wire ++ pending n.pool queue) := by
          refine ⟨rfl, ?_, fun e' he' => hgood e' (List.mem_cons_of_mem _ he'), hlive.writable,
            hlive.endOfFile⟩
          show n.sock.bufferSize - e.data.length = queuedLength queue
          omega
        have hhanded := writeOut_handed kernel n₁ n.sock.queueFD.head?.join e.cb hlive.writable
          (hgood e (List.mem_cons_self ..))
        have hinv := h₁.handed hhanded
        rw [show n₁.sock.wire ++ e.data.bytes n₁.pool e.encoding ++ pending n₁.pool n₁.sock.queue =
          taken from hwire] at hinv
        simp only [Net.flushRounds, hq]
        split
        · rename_i n₂ hn₂
          rw [show writeOut kernel n₁ e.data e.encoding n.sock.queueFD.head?.join e.cb =
            (.ok true, n₂) from hn₂] at hinv
          exact ih hinv
        · exact hinv

/-- Coalescing keeps the bytes that wait, since the encoding of a queued string works unit by
unit. -/
theorem Live.enqueue {n : State} {taken : Bytes} (h : Live n taken) {data : Data}
    {encoding : EncArg} (fd : Option ℕ) (cb : Option Callback) (hd : data.Good n.pool encoding) :
    Live { n with sock := enqueue n.sock data encoding fd cb }
      (taken ++ data.bytes n.pool encoding) := by
  have hpush : ∀ queue, pending n.pool queue =
      pending n.pool n.sock.queue ++ data.bytes n.pool encoding →
      queuedLength queue = queuedLength n.sock.queue + data.length →
      (∀ e ∈ queue, e.Good n.pool) →
      Live { n with sock := { n.sock with
        queue := queue
        bufferSize := n.sock.bufferSize + data.length
        queueFD := n.sock.queueFD ++ (fd.map some).toList } }
        (taken ++ data.bytes n.pool encoding) := by
    intro queue hbytes hlength hgood
    refine ⟨?_, ?_, hgood, h.writable, h.endOfFile⟩
    · dsimp only
      rw [hbytes, ← List.append_assoc, h.wire_eq]
    · dsimp only
      rw [hlength, h.size_eq]
  have happend : ∀ cb', Live { n with sock := { n.sock with
      queue := n.sock.queue ++ [⟨data, encoding, cb'⟩]
      bufferSize := n.sock.bufferSize + data.length
      queueFD := n.sock.queueFD ++ (fd.map some).toList } }
      (taken ++ data.bytes n.pool encoding) := by
    intro cb'
    apply hpush
    · simp [Entry.bytes]
    · simp
    · intro e he
      rcases List.mem_append.mp he with he | he
      · exact h.good e he
      · rw [List.mem_singleton] at he
        subst he
        exact hd
  unfold Net.enqueue coalesce
  split
  · rename_i last e lastCb str hlast
    split_ifs with he
    · subst he
      obtain ⟨init, hinit⟩ : ∃ init, n.sock.queue = init ++ [⟨.str last, e, lastCb⟩] :=
        ⟨_, (List.dropLast_append_getLast? _ hlast).symm⟩
      have hgood := h.good
      rw [hinit] at hgood
      rw [hinit, List.dropLast_concat]
      apply hpush
      · simp [hinit, Entry.bytes, Data.bytes, encode_append hd.2]
      · simp [hinit, Data.length]
        omega
      · intro e' he'
        rcases List.mem_append.mp he' with he' | he'
        · exact hgood e' (List.mem_append_left _ he')
        · rw [List.mem_singleton] at he'
          subst he'
          refine ⟨?_, hd.2⟩
          simp [hd.1]
    · exact happend cb
  · exact happend cb

theorem Inv.write {n : State} {taken : Bytes} (h : Inv n taken) (kernel : Kernel) {data : Data}
    {encoding : EncArg} (fd : Option ℕ) (cb : Option Callback) (hd : data.Good n.pool encoding) :
    Inv (write kernel n data encoding fd cb).2 (taken ++ data.bytes n.pool encoding) := by
  unfold Net.write
  rcases h with hdead | hlive
  · split_ifs
    · exact Or.inl hdead
    · exact Or.inl hdead
    · rw [hdead.writeOut]
      exact Or.inl hdead
  · split_ifs with hqueue hend
    · rw [hlive.endOfFile] at hend
      cases hend
    · exact Or.inr (hlive.enqueue fd cb hd)
    · have hnil : n.sock.queue = [] := by
        by_contra hne
        exact hqueue (Or.inr (Or.inl hne))
      have hwire := hlive.wire_eq
      have hinv := hlive.handed (writeOut_handed kernel n fd cb hlive.writable hd)
      rw [hnil, pending_nil, List.append_nil] at hwire hinv
      rw [← hwire]
      exact hinv

/-- Another user of the pool, a read or a write of some socket: it stores at `pool.used` and
keeps a first part of what it stored. -/
def Pool.use (p : Pool) (stored : Bytes) (kept : ℕ) : Pool :=
  let p := p.ensure
  let stored := stored.take (kPoolSize - p.used)
  { p.store stored with used := p.used + min kept stored.length }

theorem keeps_use (p : Pool) (stored : Bytes) (kept : ℕ) : p.Keeps (p.use stored kept) :=
  ((keeps_ensure p).trans (keeps_store _ _)).trans (keeps_advance _ _)

def Chunk.data : Chunk → Data
  | .str s => .str s
  | .buffer b => .buf (.user b)

/-- What can happen to a socket that is written to: calls, any number of rounds of the loop in
`flush`, the end of connecting, and the pool being used for something else. -/
inductive Action
  | write (chunk : Chunk) (encoding : EncArg) (fd : Option ℕ) (cb : Option ℕ)
  | flush (rounds : ℕ)
  | connect
  | poolUse (stored : Bytes) (kept : ℕ)

def exec (kernel : Kernel) (n : State) : Action → State
  | .write chunk encoding fd cb =>
    (write kernel n (Chunk.data chunk) encoding fd (cb.map .user)).2
  | .flush rounds => (flushRounds kernel rounds n).2
  | .connect => if n.sock.connecting ∧ n.sock.destroyed = false then onConnect n else n
  | .poolUse stored kept => { n with pool := n.pool.use stored kept }

def written : List Action → Bytes
  | [] => []
  | .write chunk encoding _ _ :: as => chunk.encode encoding.encoding ++ written as
  | _ :: as => written as

/-- Writes of something, in an encoding other than base64. -/
def Action.Plain : Action → Prop
  | .write chunk encoding _ _ => chunk.length ≠ 0 ∧ encoding.encoding ≠ .base64
  | _ => True

theorem Chunk.good_data (p : Pool) {chunk : Chunk} {encoding : EncArg} (hne : chunk.length ≠ 0)
    (he : encoding.encoding ≠ .base64) : (Chunk.data chunk).Good p encoding := by
  cases chunk with
  | str s => exact ⟨fun hs => hne (by simp [hs, NodeJS.Chunk.length]), he⟩
  | buffer b => exact ⟨hne, trivial⟩

theorem Chunk.bytes_data (p : Pool) (chunk : Chunk) (encoding : EncArg) :
    (Chunk.data chunk).bytes p encoding = chunk.encode encoding.encoding := by
  cases chunk with
  | str s => rfl
  | buffer b => simp [Chunk.data, Data.bytes, Buf.bytes, Buf.read, Buf.length, Chunk.encode]

theorem Inv.exec {n : State} {taken : Bytes} (h : Inv n taken) (kernel : Kernel) {a : Action}
    (ha : a.Plain) : Inv (exec kernel n a) (taken ++ written [a]) := by
  cases a with
  | write chunk encoding fd cb =>
    have hbytes := Chunk.bytes_data n.pool chunk encoding
    have hwrite := h.write kernel fd (cb.map .user) (Chunk.good_data n.pool ha.1 ha.2)
    rw [hbytes] at hwrite
    simpa [written, Net.exec] using hwrite
  | flush rounds => simpa [written, Net.exec] using h.flushRounds kernel rounds
  | connect =>
    simp only [written, List.append_nil, Net.exec]
    split_ifs with hc
    · rcases h with hdead | hlive
      · rw [hdead.1] at hc
        cases hc.2
      · exact Or.inr ⟨hlive.wire_eq, hlive.size_eq, hlive.good, rfl, hlive.endOfFile⟩
    · exact h
  | poolUse stored kept =>
    simp only [written, List.append_nil, Net.exec]
    rcases h with hdead | hlive
    · exact Or.inl hdead
    · right
      have hkeeps := keeps_use n.pool stored kept
      refine ⟨?_, hlive.size_eq, fun e he => ((hlive.good e he).keeps hkeeps).1, hlive.writable,
        hlive.endOfFile⟩
      dsimp only
      rw [pending_keeps hlive.good hkeeps, hlive.wire_eq]

theorem written_cons (a : Action) (as : List Action) :
    written (a :: as) = written [a] ++ written as := by
  cases a with
  | write chunk encoding fd cb => simp [written]
  | _ => rfl

theorem Inv.run {n : State} {taken : Bytes} (h : Inv n taken) (kernel : Kernel)
    {as : List Action} (ha : ∀ a ∈ as, a.Plain) :
    Inv (as.foldl (Net.exec kernel) n) (taken ++ written as) := by
  induction as generalizing n taken with
  | nil => simpa [written] using h
  | cons a as ih =>
    rw [written_cons, ← List.append_assoc, List.foldl_cons]
    exact ih (h.exec kernel (ha a (List.mem_cons_self ..)))
      fun b hb => ha b (List.mem_cons_of_mem _ hb)

/-- While a socket lives the kernel has a prefix of everything written to it, the write queue
has the rest, and `bufferSize` counts what is queued. -/
theorem delivery (kernel : Kernel) (pool : Pool) (unix connecting : Bool) (as : List Action)
    (ha : ∀ a ∈ as, a.Plain)
    (hlive : (as.foldl (exec kernel) ⟨pool, .new unix connecting⟩).sock.destroyed = false) :
    let n := as.foldl (exec kernel) ⟨pool, .new unix connecting⟩
    n.sock.wire <+: written as ∧ n.sock.wire ++ pending n.pool n.sock.queue = written as ∧
      n.sock.bufferSize = queuedLength n.sock.queue := by
  intro n
  have h₀ : Inv ⟨pool, .new unix connecting⟩ [] := by
    right
    refine ⟨rfl, rfl, ?_, rfl, rfl⟩
    intro e he
    cases he
  rcases h₀.run kernel ha with hdead | h
  · rw [hdead.1] at hlive
    cases hlive
  · rw [List.nil_append] at h
    exact ⟨⟨_, h.wire_eq⟩, h.wire_eq, h.size_eq⟩

/-- Two strings on an open socket whose kernel takes one byte and then blocks. -/
theorem delivery_partial :
    let as : List Action := [.write (.str (js "ab")) none none none,
      .write (.str (js "c")) none none none, .flush 3]
    let n := as.foldl (exec ⟨fun i _ => if i = 0 then .wrote 1 else .again, fun _ => true⟩)
      ⟨⟨fun _ _ => 0, 0, 0⟩, .new false false⟩
    n.sock.destroyed = false ∧ n.sock.wire <+: written as ∧
      n.sock.wire ++ pending n.pool n.sock.queue = written as ∧
      n.sock.bufferSize = queuedLength n.sock.queue := by
  intro as n
  have hplain : ∀ a ∈ as, a.Plain := by
    simp [as, Action.Plain, Chunk.length, EncArg.encoding, js]
  have hlive : n.sock.destroyed = false := by decide +kernel
  exact ⟨hlive, delivery _ _ _ _ as hplain hlive⟩

end NodeJS.Net
