import NodeJS.Net.Delivery

/-! Queued and direct writes on a kernel that takes what it is offered. Both ways are compared
with what the queue entries promise. -/
namespace NodeJS.Net

def takeAll : Kernel := ⟨fun _ len => .wrote len, fun _ => true⟩

structure Write where
  chunk : Chunk
  encoding : EncArg

def Write.entry (w : Write) : Entry := ⟨Chunk.data w.chunk, w.encoding, none⟩

def submit (n : State) (w : Write) : State :=
  (write takeAll n (Chunk.data w.chunk) w.encoding none none).2

/-- An upper bound for the rounds of `flush` that a queue needs. -/
def weight (queue : List Entry) : ℕ := (queue.map fun e => e.data.length + 1).sum

/-- Rounds of `flush`, event after event, until the queue is empty. -/
def drain (n : State) : State := (fun n => (flushRounds takeAll 1 n).2)^[weight n.sock.queue] n

def establish (n : State) : State := if n.sock.connecting then onConnect n else n

/-- Every write finds the socket connected and its queue empty. -/
def direct (n : State) (ws : List Write) : State :=
  ws.foldl (fun n w => drain (submit n w)) (drain (establish n))

/-- All writes are made before anything is flushed. -/
def queued (n : State) (ws : List Write) : State := drain (establish (ws.foldl submit n))

/-- What has reached the kernel, and whether the socket was destroyed. -/
def outcome (n : State) : Bytes × Bool := (n.sock.wire, n.sock.destroyed)

/-- What a round of `flush` makes of an entry: bytes, none after an exception, or the end of the
socket. -/
def emit (p : Pool) (e : Entry) : Option Bytes :=
  match e.data with
  | .buf b => if b.length = 0 then none else some (b.bytes p)
  | .str s =>
    if e.encoding.encoding ≠ .base64 then some (encode e.encoding.encoding s) else
    match bufferWrite kPoolSize s p.ensure.used .base64 with
    | .error _ => some []
    | .ok w =>
      if s.length > 0 ∧ w.written = 0 then some []
      else if p.ensure.used + w.written > kPoolSize then none
      else some (w.stored.take w.written)

def emitAll (p : Pool) : List Entry → Bytes × Bool
  | [] => ([], false)
  | e :: queue =>
    match emit p e with
    | none => ([], true)
    | some b => (b ++ (emitAll p queue).1, (emitAll p queue).2)

/-- What a state comes to once it is drained. -/
def promise (n : State) : Bytes × Bool :=
  if n.sock.destroyed then (n.sock.wire, true)
  else (n.sock.wire ++ (emitAll n.pool n.sock.queue).1, (emitAll n.pool n.sock.queue).2)

def Entry.Frozen (p : Pool) (e : Entry) : Prop :=
  match e.data with
  | .str _ => True
  | .buf b => b.Frozen p

/-- A socket that can be flushed, without descriptors to pass. -/
structure Ready (n : State) : Prop where
  writable : n.sock.writable = true
  destroyed : n.sock.destroyed = false
  endOfFile : n.sock.endOfFile = false
  fds : ∀ d ∈ n.sock.queueFD, d = none
  frozen : ∀ e ∈ n.sock.queue, e.Frozen n.pool

structure Gone (n : State) : Prop where
  destroyed : n.sock.destroyed = true
  writable : n.sock.writable = false
  queue : n.sock.queue = []
  endOfFile : n.sock.endOfFile = false

/-- A later pool with the same room for strings. -/
structure Pool.Later (p p' : Pool) : Prop where
  keeps : p.Keeps p'
  used_eq : p'.ensure.used = p.ensure.used

theorem ensure_of_room {p : Pool} (hcount : p.count ≠ 0)
    (hroom : p.used + kMinPoolSpace ≤ kPoolSize) : p.ensure = p := by
  unfold Pool.ensure
  rw [if_neg]
  rw [not_or]
  refine ⟨hcount, ?_⟩
  omega

theorem later_ensure (p : Pool) : p.Later p.ensure := by
  obtain ⟨hcount, hroom⟩ := ensure_room p
  refine ⟨keeps_ensure p, ?_⟩
  rw [ensure_of_room hcount hroom]

theorem Pool.Later.refl (p : Pool) : p.Later p := ⟨.refl p, rfl⟩

theorem Pool.Later.trans {p p' p'' : Pool} (h : p.Later p') (h' : p'.Later p'') : p.Later p'' :=
  ⟨h.keeps.trans h'.keeps, h'.used_eq.trans h.used_eq⟩

theorem later_store (p : Pool) (bytes : Bytes) : p.Later (p.ensure.store bytes) := by
  obtain ⟨hcount, hroom⟩ := ensure_room p
  refine ⟨(keeps_ensure p).trans (keeps_store _ _), ?_⟩
  rw [ensure_of_room (p := p.ensure.store bytes) hcount hroom]
  rfl

theorem Entry.Frozen.later {p p' : Pool} {e : Entry} (h : e.Frozen p) (hp : p.Later p') :
    e.Frozen p' ∧ emit p' e = emit p e := by
  obtain ⟨data, encoding, cb⟩ := e
  cases data with
  | str s =>
    refine ⟨trivial, ?_⟩
    unfold emit
    dsimp only
    rw [hp.used_eq]
  | buf b =>
    obtain ⟨hf, hb⟩ := Buf.Frozen.keeps h hp.keeps
    refine ⟨hf, ?_⟩
    unfold emit
    dsimp only
    rw [hb]

theorem emitAll_later {p p' : Pool} {q : List Entry} (h : ∀ e ∈ q, e.Frozen p)
    (hp : p.Later p') : emitAll p' q = emitAll p q := by
  induction q with
  | nil => rfl
  | cons e q ih =>
    have he := (h e (List.mem_cons_self ..)).later hp
    have hq := ih fun e' he' => h e' (List.mem_cons_of_mem _ he')
    unfold emitAll
    rw [he.2, hq]

theorem emitAll_append (p : Pool) (q q' : List Entry) :
    emitAll p (q ++ q') =
      if (emitAll p q).2 then emitAll p q
      else ((emitAll p q).1 ++ (emitAll p q').1, (emitAll p q').2) := by
  induction q with
  | nil => simp [emitAll]
  | cons e q ih =>
    cases he : emit p e with
    | none => simp [emitAll, he]
    | some b =>
      simp only [List.cons_append, emitAll, he, ih]
      split_ifs with h
      · simp [h]
      · simp

/-! ### A hand-over keeps the promise -/

/-- The state after handing over `e`, which stood in front of the queue of `n`. -/
structure Progress (n : State) (e : Entry) (n' : State) : Prop where
  settled : Ready n' ∨ Gone n'
  promise_eq : promise n' =
    promise { n with sock := { n.sock with queue := e :: n.sock.queue } }
  weight_lt : weight n'.sock.queue < weight (e :: n.sock.queue)
  connecting_eq : n'.sock.connecting = n.sock.connecting
  later : n'.sock.destroyed = false → n.pool.Later n'.pool

variable {n : State} {e : Entry}

theorem weight_cons (e : Entry) (q : List Entry) :
    weight (e :: q) = e.data.length + 1 + weight q := by
  simp [weight]

theorem progress_gone (h : Ready n) (he : emit n.pool e = none) {p : Pool} :
    Progress n e (destroy { n with pool := p }) := by
  refine ⟨Or.inr ⟨rfl, rfl, rfl, rfl⟩, ?_, ?_, rfl, fun h => by cases h⟩
  · simp [promise, destroy, h.destroyed, emitAll, he]
  · rw [weight_cons]
    show 0 < _
    omega

theorem progress_emit (h : Ready n) {b : Bytes} (he : emit n.pool e = some b) {p : Pool}
    (hp : n.pool.Later p) (passed called : List ℕ) (calls : ℕ) :
    Progress n e ⟨p, { n.sock with
      wire := n.sock.wire ++ b
      passed := passed
      called := called
      calls := calls }⟩ := by
  refine ⟨Or.inl ⟨h.writable, h.destroyed, h.endOfFile, h.fds,
    fun e he => ((h.frozen e he).later hp).1⟩, ?_, ?_, rfl, fun _ => hp⟩
  · simp [promise, h.destroyed, emitAll, he, emitAll_later h.frozen hp]
  · rw [weight_cons]
    dsimp only
    omega

/-- Only a first part of a string has gone out. -/
theorem progress_split (h : Ready n) {s : JSString} {k : ℕ} {encoding : EncArg}
    {cb : Option Callback} (hb : encoding.encoding ≠ .base64) (hk : 0 < k) (hks : k < s.length)
    {p : Pool} (hp : n.pool.Later p) (passed called : List ℕ) (calls : ℕ) (size : ℤ) :
    Progress n ⟨.str s, encoding, cb⟩ ⟨p, { n.sock with
      queue := ⟨.str (s.drop k), encoding, cb⟩ :: n.sock.queue
      bufferSize := size
      wire := n.sock.wire ++ encode encoding.encoding (s.take k)
      passed := passed
      called := called
      calls := calls }⟩ := by
  refine ⟨Or.inl ⟨h.writable, h.destroyed, h.endOfFile, h.fds, ?_⟩, ?_, ?_, rfl, fun _ => hp⟩
  · intro e he
    rcases List.mem_cons.mp he with he | he
    · subst he
      trivial
    · exact ((h.frozen e he).later hp).1
  · have hsplit : encode encoding.encoding s =
        encode encoding.encoding (s.take k) ++ encode encoding.encoding (s.drop k) := by
      rw [← encode_append hb, List.take_append_drop]
    simp [promise, h.destroyed, emitAll, emit, hb, emitAll_later h.frozen hp, hsplit]
  · simp only [weight_cons, Data.length, List.length_drop]
    omega

theorem runCallback_snd (n : State) (cb : Option Callback) :
    ∃ called, (runCallback n cb).2 = { n with sock := { n.sock with called := called } } := by
  unfold runCallback
  split
  · exact ⟨n.sock.called, rfl⟩
  · exact ⟨_, rfl⟩
  · exact ⟨n.sock.called, rfl⟩

/-- `send` inside the bounds of its buffer. -/
theorem send_takeAll (n : State) (buffer : Buf) (off len : ℕ) (cb : Option Callback)
    (queuedData : Bool) (hoff : off < buffer.length) (hlen : off + len ≤ buffer.length) :
    ∃ passed called calls, (send takeAll n buffer off len none cb queuedData).2 =
      ⟨if buffer = .pool n.pool.current then { n.pool with used := n.pool.used - len } else n.pool,
        { n.sock with
          wire := n.sock.wire ++ buffer.read n.pool off len
          passed := passed
          called := called
          calls := calls }⟩ := by
  have h₁ : ¬ (n.sock.unix = true ∧ (none : Option ℕ).any (· ≠ 0) = true ∧
      (off ≥ buffer.length ∨ len = 0)) := by simp
  have h₂ : ¬ (off ≥ buffer.length ∨ off + len > buffer.length) := by omega
  unfold send writeImpl takeAll
  dsimp only
  rw [if_neg h₁, if_neg h₂]
  simp only [min_self, if_true, Option.toList_none, List.append_nil, ite_self]
  cases queuedData with
  | true =>
    refine ⟨n.sock.passed, n.sock.called, n.sock.calls + 1, ?_⟩
    rw [if_pos rfl]
    split_ifs
    · rfl
    · rfl
  | false =>
    rw [if_neg Bool.false_ne_true]
    split_ifs
    · obtain ⟨called, hcalled⟩ := runCallback_snd _ cb
      exact ⟨_, called, _, hcalled⟩
    · obtain ⟨called, hcalled⟩ := runCallback_snd _ cb
      exact ⟨_, called, _, hcalled⟩

theorem send_bounds (n : State) {buffer : Buf} {off len : ℕ} (cb : Option Callback)
    (queuedData : Bool) (h : off ≥ buffer.length ∨ off + len > buffer.length) :
    (send takeAll n buffer off len none cb queuedData).2 = destroy n := by
  unfold send writeImpl
  dsimp only
  rw [if_neg (by simp), if_pos h]

/-- The pool after a string of which everything that was placed in it has gone out. -/
theorem place_release (p : Pool) (w : Written) :
    { p.place w with used := (p.place w).used - w.written } = p.store w.stored := by
  simp [Pool.place]

theorem send_place {p : Pool} {w : Written} (sock : Socket)
    (cb : Option Callback) (queuedData : Bool) (hp : p.used < kPoolSize)
    (hfit : p.used + w.written ≤ kPoolSize) (hw : w.written ≤ w.stored.length) :
    ∃ passed called calls,
      (send takeAll ⟨p.place w, sock⟩ (.pool (p.place w).current) p.used w.written none cb
        queuedData).2 =
      ⟨p.store w.stored, { sock with
        wire := sock.wire ++ w.stored.take w.written
        passed := passed
        called := called
        calls := calls }⟩ := by
  obtain ⟨passed, called, calls, h⟩ := send_takeAll ⟨p.place w, sock⟩
    (.pool (p.place w).current) p.used w.written cb queuedData hp hfit
  refine ⟨passed, called, calls, ?_⟩
  have hread : (Buf.pool (p.place w).current).read (p.place w) p.used w.written =
      w.stored.take w.written := read_store (p := p) hw
  rw [h]
  dsimp only
  rw [if_pos rfl, place_release, hread]

theorem writeOut_buf_progress (h : Ready n) {b : Buf} (hb : b.Frozen n.pool)
    (encoding : EncArg) (cb : Option Callback) :
    Progress n ⟨.buf b, encoding, cb⟩ (writeOut takeAll n (.buf b) encoding none cb).2 := by
  unfold writeOut
  rw [if_neg (by simp [h.writable])]
  dsimp only
  by_cases hlen : b.length = 0
  · rw [send_bounds n cb false (Or.inl (by omega))]
    exact progress_gone h (by simp [emit, hlen])
  · obtain ⟨passed, called, calls, hs⟩ :=
      send_takeAll n b 0 b.length cb false (by omega) (by omega)
    have hpool : b ≠ .pool n.pool.current := by
      intro hbuf
      rw [hbuf] at hb
      exact hb
    rw [hs, if_neg hpool]
    refine progress_emit h ?_ (.refl _) _ _ _
    simp [emit, hlen, Buf.bytes]

/-- A string in an encoding that works unit by unit: all of it goes out, or a first part. -/
theorem writeOut_str_progress (h : Ready n) (s : JSString) {encoding : EncArg}
    (he : encoding.encoding ≠ .base64) (cb : Option Callback) :
    Progress n ⟨.str s, encoding, cb⟩ (writeOut takeAll n (.str s) encoding none cb).2 := by
  obtain ⟨hcount, hroom⟩ := ensure_room n.pool
  have hused := used_ensure_lt n.pool
  obtain ⟨w, hbw, hexact⟩ := bufferWrite_exact he kPoolSize s n.pool.ensure.used
  have hchars := hexact.charsWritten_eq
  have hfit := Lib.length_flatMap_take_fit_le (unitBytes encoding.encoding)
    (kPoolSize - n.pool.ensure.used) s
  rw [← hchars, ← encode_eq_flatMap he, ← hexact.written_eq] at hfit
  have hstored := congrArg List.length hexact.stored_take
  rw [List.length_take, ← hexact.written_eq] at hstored
  have hfull : ¬ (s.length > 0 ∧ w.written = 0) := by
    intro hboth
    obtain ⟨hs, hzero⟩ := hboth
    obtain ⟨w', hplaced⟩ := exists_placed hroom (List.length_pos_iff.mp hs) he
    have heq := hplaced.write_eq
    rw [hbw] at heq
    obtain rfl := Except.ok.inj heq
    exact hplaced.written_pos.ne' hzero
  have hsend := fun sock queuedData =>
    send_place (p := n.pool.ensure) (w := w) sock cb queuedData hused (by omega) (by omega)
  unfold writeOut
  rw [if_neg (by simp [h.writable])]
  dsimp only
  rw [hbw]
  dsimp only
  rw [if_neg hfull]
  by_cases hall : w.charsWritten = s.length
  · rw [if_neg (not_not.mpr hall)]
    obtain ⟨passed, called, calls, hs⟩ := hsend n.sock false
    refine hs ▸ progress_emit h ?_ (later_store _ _) _ _ _
    rw [hexact.stored_take, hall, List.take_length]
    simp [emit, he]
  · rw [if_pos hall]
    obtain ⟨passed, called, calls, hs⟩ :=
      hsend (n.sock.unshift ⟨.str (s.drop w.charsWritten), encoding, cb⟩) true
    rw [hexact.stored_take] at hs
    have hle : w.charsWritten ≤ s.length := hchars ▸ Lib.fit_le_length ..
    have hpos : 0 < w.charsWritten := by
      rw [hchars]
      apply Lib.fit_pos
      · intro hs
        simp [hs] at hle hall
        omega
      · intro c
        have := length_unitBytes_le encoding.encoding c
        simp only [kMinPoolSpace] at hroom
        omega
    exact hs ▸ progress_split h he hpos (by omega) (later_store _ _) _ _ _ _

theorem base64_written {s : JSString} {off : ℕ} {w : Written}
    (h : bufferWrite kPoolSize s off .base64 = .ok w) :
    w.charsWritten = s.length ∧ w.written ≤ w.stored.length := by
  simp only [bufferWrite] at h
  cases hb : Base64.base64Write kPoolSize s off with
  | error err =>
    rw [hb] at h
    cases h
  | ok stored =>
    rw [hb] at h
    obtain rfl := Except.ok.inj h
    exact ⟨rfl, le_rfl⟩

/-- A base64 string goes out whole, is refused, or takes the socket with it. -/
theorem writeOut_base64_progress (h : Ready n) (s : JSString) {encoding : EncArg}
    (he : encoding.encoding = .base64) (cb : Option Callback) :
    Progress n ⟨.str s, encoding, cb⟩ (writeOut takeAll n (.str s) encoding none cb).2 := by
  obtain ⟨hcount, hroom⟩ := ensure_room n.pool
  have hused := used_ensure_lt n.pool
  unfold writeOut
  rw [if_neg (by simp [h.writable])]
  dsimp only
  rw [he]
  cases hbw : bufferWrite kPoolSize s n.pool.ensure.used .base64 with
  | error err =>
    have hemit : emit n.pool ⟨.str s, encoding, cb⟩ = some [] := by
      simp [emit, he, hbw]
    have := progress_emit h hemit (later_ensure _) n.sock.passed n.sock.called n.sock.calls
    simpa using this
  | ok w =>
    dsimp only
    obtain ⟨hchars, hstored⟩ := base64_written hbw
    by_cases hzero : s.length > 0 ∧ w.written = 0
    · rw [if_pos hzero]
      have hemit : emit n.pool ⟨.str s, encoding, cb⟩ = some [] := by
        simp only [emit, he, hbw, ne_eq, not_true_eq_false, if_false]
        rw [if_pos hzero]
      have := progress_emit h hemit (later_store _ w.stored) n.sock.passed n.sock.called
        n.sock.calls
      simpa using this
    · rw [if_neg hzero, if_neg (not_not.mpr hchars)]
      by_cases hfit : n.pool.ensure.used + w.written > kPoolSize
      · have hemit : emit n.pool ⟨.str s, encoding, cb⟩ = none := by
          simp only [emit, he, hbw, ne_eq, not_true_eq_false, if_false]
          rw [if_neg hzero, if_pos hfit]
        rw [send_bounds _ cb false (Or.inr hfit)]
        exact progress_gone h hemit
      · have hemit : emit n.pool ⟨.str s, encoding, cb⟩ = some (w.stored.take w.written) := by
          simp only [emit, he, hbw, ne_eq, not_true_eq_false, if_false]
          rw [if_neg hzero, if_neg hfit]
        obtain ⟨passed, called, calls, hs⟩ := send_place (p := n.pool.ensure) (w := w) n.sock cb
          false hused (by omega) hstored
        exact hs ▸ progress_emit h hemit (later_store _ _) _ _ _

theorem writeOut_progress (h : Ready n) (he : e.Frozen n.pool) :
    Progress n e (writeOut takeAll n e.data e.encoding none e.cb).2 := by
  obtain ⟨data, encoding, cb⟩ := e
  cases data with
  | buf b => exact writeOut_buf_progress h he encoding cb
  | str s =>
    by_cases hb : encoding.encoding = .base64
    · exact writeOut_base64_progress h s hb cb
    · exact writeOut_str_progress h s hb cb

/-! ### Draining makes the promise true -/

theorem flushRounds_nil (kernel : Kernel) (fuel : ℕ) (hq : n.sock.queue = [])
    (he : n.sock.endOfFile = false) : (flushRounds kernel fuel n).2 = n := by
  cases fuel with
  | zero => rfl
  | succ fuel => simp [flushRounds, hq, he]

theorem round_cons (h : Ready n) {q : List Entry} (hq : n.sock.queue = e :: q) :
    let n' := (flushRounds takeAll 1 n).2
    (Ready n' ∨ Gone n') ∧ promise n' = promise n ∧
      weight n'.sock.queue < weight n.sock.queue ∧ n'.sock.connecting = n.sock.connecting ∧
      (n'.sock.destroyed = false → n.pool.Later n'.pool) := by
  intro n'
  have hfrozen := h.frozen
  rw [hq] at hfrozen
  have hfd : n.sock.queueFD.head?.join = none := by
    cases hd : n.sock.queueFD with
    | nil => rfl
    | cons d ds =>
      have := h.fds d (by simp [hd])
      simp [this]
  let n₁ : State := { n with sock := { n.sock with
    queue := q
    queueFD := n.sock.queueFD.tail
    bufferSize := n.sock.bufferSize - e.data.length } }
  have h₁ : Ready n₁ := ⟨h.writable, h.destroyed, h.endOfFile,
    fun d hd => h.fds d (List.mem_of_mem_tail hd),
    fun e' he' => hfrozen e' (List.mem_cons_of_mem _ he')⟩
  have hprog := writeOut_progress h₁ (hfrozen e (List.mem_cons_self ..))
  have hn' : n' = (writeOut takeAll n₁ e.data e.encoding none e.cb).2 := by
    simp only [n', flushRounds, hq, hfd]
    split
    · rename_i n₂ hn₂
      exact (congrArg Prod.snd hn₂).symm
    · rfl
  have hpromise : promise { n₁ with sock := { n₁.sock with queue := e :: n₁.sock.queue } } =
      promise n := by
    simp [promise, n₁, hq]
  rw [hn', hq]
  exact ⟨hprog.settled, hprog.promise_eq.trans hpromise, hprog.weight_lt, hprog.connecting_eq,
    hprog.later⟩

structure Drained (n n' : State) : Prop where
  settled : Ready n' ∨ Gone n'
  queue_eq : n'.sock.queue = []
  outcome_eq : outcome n' = promise n
  connecting_eq : n'.sock.connecting = n.sock.connecting
  later : n'.sock.destroyed = false → n.pool.Later n'.pool

theorem promise_of_nil (h : Ready n ∨ Gone n) (hq : n.sock.queue = []) : promise n = outcome n := by
  rcases h with h | h
  · simp [promise, outcome, h.destroyed, hq, emitAll]
  · simp [promise, outcome, h.destroyed]

theorem Drained.alive {n' : State} (h : Drained n n') (halive : n'.sock.destroyed = false) :
    n.sock.destroyed = false := by
  by_contra hgone
  rw [Bool.not_eq_false] at hgone
  have hsnd := congrArg Prod.snd h.outcome_eq
  simp [outcome, promise, hgone, halive] at hsnd

theorem drained_iterate (h : Ready n ∨ Gone n) {k : ℕ} (hk : weight n.sock.queue ≤ k) :
    Drained n ((fun n => (flushRounds takeAll 1 n).2)^[k] n) := by
  induction k generalizing n with
  | zero =>
    have hq : n.sock.queue = [] := by
      cases hq : n.sock.queue with
      | nil => rfl
      | cons e q =>
        rw [hq, weight_cons] at hk
        omega
    exact ⟨h, hq, (promise_of_nil h hq).symm, rfl, fun _ => .refl _⟩
  | succ k ih =>
    rw [Function.iterate_succ_apply]
    cases hq : n.sock.queue with
    | nil =>
      have hend : n.sock.endOfFile = false := by
        rcases h with h | h
        · exact h.endOfFile
        · exact h.endOfFile
      rw [flushRounds_nil takeAll 1 hq hend]
      apply ih h
      rw [hq]
      exact Nat.zero_le _
    | cons e q =>
      have hready : Ready n := by
        rcases h with h | h
        · exact h
        · rw [h.queue] at hq
          cases hq
      obtain ⟨hsettled, hpromise, hweight, hconn, hlater⟩ := round_cons hready hq
      have hd := ih hsettled (by omega)
      refine ⟨hd.settled, hd.queue_eq, hd.outcome_eq.trans hpromise, hd.connecting_eq.trans hconn,
        fun halive => ?_⟩
      exact (hlater (hd.alive halive)).trans (hd.later halive)

theorem drain_drained (h : Ready n ∨ Gone n) : Drained n (drain n) :=
  drained_iterate h le_rfl

theorem establish_settled (h : Ready n) :
    Ready (establish n) ∧ promise (establish n) = promise n ∧
      (establish n).sock.connecting = false := by
  unfold establish
  split_ifs with hc
  · exact ⟨⟨rfl, h.destroyed, h.endOfFile, h.fds, h.frozen⟩, rfl, rfl⟩
  · exact ⟨h, rfl, by simpa using hc⟩

theorem Chunk.frozen_data (w : Write) (p : Pool) : w.entry.Frozen p := by
  obtain ⟨chunk, encoding⟩ := w
  cases chunk with
  | str s => trivial
  | buffer b => trivial

/-- A write to a socket that is connected and has nothing queued. -/
theorem submit_direct (h : Ready n) (hq : n.sock.queue = []) (hc : n.sock.connecting = false)
    (w : Write) : Progress n w.entry (submit n w) := by
  unfold submit write
  rw [if_neg (by simp [hq, hc, h.endOfFile])]
  exact writeOut_progress h (Chunk.frozen_data w n.pool)

theorem submit_gone (h : Gone n) (hc : n.sock.connecting = false) (w : Write) :
    submit n w = n := by
  unfold submit write
  rw [if_neg (by simp [h.queue, hc, h.endOfFile])]
  unfold writeOut
  rw [if_pos h.writable]

theorem drain_gone (h : Gone n) : drain n = n := by
  unfold drain
  rw [h.queue]
  rfl

theorem direct_gone (h : Gone n) (hc : n.sock.connecting = false) (ws : List Write) :
    ws.foldl (fun n w => drain (submit n w)) n = n := by
  induction ws with
  | nil => rfl
  | cons w ws ih => rw [List.foldl_cons, submit_gone h hc, drain_gone h, ih]

/-- Writes one by one come to what their entries promise in the pool at the start. -/
theorem direct_outcome {p : Pool} (h : Ready n) (hq : n.sock.queue = [])
    (hc : n.sock.connecting = false) (hp : p.Later n.pool) (ws : List Write) :
    outcome (ws.foldl (fun n w => drain (submit n w)) n) =
      (n.sock.wire ++ (emitAll p (ws.map Write.entry)).1,
        (emitAll p (ws.map Write.entry)).2) := by
  induction ws generalizing n with
  | nil => simp [outcome, emitAll, h.destroyed]
  | cons w ws ih =>
    have hprog := submit_direct h hq hc w
    have hd := drain_drained hprog.settled
    have hconn := (hd.connecting_eq.trans hprog.connecting_eq).trans hc
    have hout := hd.outcome_eq.trans hprog.promise_eq
    have hemit := ((Chunk.frozen_data w p).later hp).2
    rw [List.foldl_cons, List.map_cons]
    cases he : emit p w.entry with
    | none =>
      have hout' : outcome (drain (submit n w)) = (n.sock.wire, true) := by
        rw [hout]
        simp [promise, h.destroyed, emitAll, hemit, he]
      have hgone : Gone (drain (submit n w)) := by
        rcases hd.settled with hr | hg
        · have := congrArg Prod.snd hout'
          simp [outcome, hr.destroyed] at this
        · exact hg
      rw [direct_gone hgone hconn, hout']
      simp [emitAll, he]
    | some b =>
      have hout' : outcome (drain (submit n w)) = (n.sock.wire ++ b, false) := by
        rw [hout]
        simp [promise, h.destroyed, hq, emitAll, hemit, he]
      have halive : (drain (submit n w)).sock.destroyed = false := congrArg Prod.snd hout'
      have hwire : (drain (submit n w)).sock.wire = n.sock.wire ++ b := congrArg Prod.fst hout'
      have hready : Ready (drain (submit n w)) := by
        rcases hd.settled with hr | hg
        · exact hr
        · rw [hg.destroyed] at halive
          cases halive
      have hlater := (hp.trans (hprog.later (hd.alive halive))).trans (hd.later halive)
      rw [ih hready hd.queue_eq hconn hlater, hwire]
      simp [emitAll, he]

/-- The entries of a queue and of the writes made one by one after it. -/
theorem direct_eq (h : Ready n) (ws : List Write) :
    outcome (direct n ws) =
      (n.sock.wire ++ (emitAll n.pool (n.sock.queue ++ ws.map Write.entry)).1,
        (emitAll n.pool (n.sock.queue ++ ws.map Write.entry)).2) := by
  obtain ⟨hready, hpromise, hconn⟩ := establish_settled h
  have hd := drain_drained (Or.inl hready)
  have hpool : (establish n).pool = n.pool := by
    unfold establish
    split_ifs
    · rfl
    · rfl
  have hc := hd.connecting_eq.trans hconn
  have hout := hd.outcome_eq.trans hpromise
  rw [promise, h.destroyed, if_neg Bool.false_ne_true] at hout
  unfold direct
  rw [emitAll_append]
  cases halive : (emitAll n.pool n.sock.queue).2 with
  | true =>
    rw [halive] at hout
    have hgone : Gone (drain (establish n)) := by
      rcases hd.settled with hr | hg
      · have := congrArg Prod.snd hout
        simp [outcome, hr.destroyed] at this
      · exact hg
    rw [direct_gone hgone hc, hout]
    simp [halive]
  | false =>
    rw [halive] at hout
    have hdest : (drain (establish n)).sock.destroyed = false := congrArg Prod.snd hout
    have hwire : (drain (establish n)).sock.wire = n.sock.wire ++ (emitAll n.pool n.sock.queue).1 :=
      congrArg Prod.fst hout
    have hr : Ready (drain (establish n)) := by
      rcases hd.settled with hr | hg
      · exact hr
      · rw [hg.destroyed] at hdest
        cases hdest
    have hlater : n.pool.Later (drain (establish n)).pool := hpool ▸ hd.later hdest
    rw [direct_outcome hr hd.queue_eq hc hlater, hwire]
    simp

end NodeJS.Net
