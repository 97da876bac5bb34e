import NodeJS.Lib.Reach
import NodeJS.Net.Coalesce
import NodeJS.Net.Handover

/-! All sockets of the module and the pool they share: the parts of it that were handed to `'data'`
listeners or wait in a write queue, and what `ondata` is given. -/
namespace NodeJS.Net.Regions
open Lib

/-- What `_readImpl` comes to: an exception, -1, or the bytes that were read. -/
inductive Recv
  | failed
  | again
  | read (bytes : Bytes)

/-- The module with its sockets, and the Buffers that `'data'` listeners were given. -/
structure World where
  pool : Pool
  sock : ℕ → Socket
  handed : List Buf

def World.new (pool : Pool) (unix connecting : ℕ → Bool) : World :=
  ⟨pool, fun i => .new (unix i) (connecting i), []⟩

def World.net (s : World) (i : ℕ) : State := ⟨s.pool, s.sock i⟩

def World.setNet (s : World) (i : ℕ) (n : State) : World :=
  { s with pool := n.pool, sock := Function.update s.sock i n.sock }

/-- A call on a socket, a round of `flush`, or an event. A listener or a callback may do any of
them before what called it goes on. -/
inductive Action
  | write (i : ℕ) (data : Data) (encoding : EncArg) (fd : Option ℕ) (cb : Option ℕ)
  | flush (i : ℕ)
  /-- `END_OF_FILE` is queued, which `end` does between a `write` and a `flush`. -/
  | endOfFile (i : ℕ)
  | destroy (i : ℕ)
  | connect (i : ℕ)
  /-- `_onReadable`. If `emits`, then a `'data'` listener is given a Buffer. -/
  | read (i : ℕ) (recv : Recv) (emits : Bool)

/-- What the program can write: strings, Buffers of its own, and slices of Buffers that its
listeners were given. The pool itself is left out. -/
def World.owns (s : World) : Data → Bool
  | .str _ => true
  | .buf (.user _) => true
  | .buf (.pool _) => false
  | .buf (.window id start stop) => s.handed.any fun
    | .window id' start' stop' => id = id' ∧ start' ≤ start ∧ stop ≤ stop'
    | _ => false

/-- Where the pool takes the bytes of a read: from `pool.used` on, as many as there is room for. -/
def readRegion (p : Pool) (bytes : Bytes) : Buf :=
  .window p.current p.used (p.used + (bytes.take (kPoolSize - p.used)).length)

/-- `pool` after `_readImpl` has stored to it and `pool.used` was moved. -/
def fill (p : Pool) (bytes : Bytes) : Pool :=
  let bytes := bytes.take (kPoolSize - p.used)
  { p.store bytes with used := p.used + bytes.length }

/-- `_onReadable` up to the `'data'` listeners. At the end of the stream `end`, if it is called, and
the listeners are steps of their own. -/
def onReadable (s : World) (i : ℕ) (recv : Recv) (emits : Bool) : World :=
  let pool := s.pool.ensure
  match recv with
  | .failed => s.setNet i (destroy ⟨pool, s.sock i⟩)
  | .again => { s with pool := pool }
  | .read [] =>
    let sock := { s.sock i with readable := false }
    s.setNet i (if sock.writable then ⟨pool, sock⟩ else destroy ⟨pool, sock⟩)
  | .read bytes =>
    { s with
      pool := fill pool bytes
      handed := if emits then s.handed ++ [readRegion pool bytes] else s.handed }

def step (kernel : ℕ → Kernel) (s : World) : Action → Option World
  | .write i data encoding fd cb =>
    if s.owns data then
      some (s.setNet i (Net.write (kernel i) (s.net i) data encoding fd (cb.map .user)).2)
    else none
  | .flush i => some (s.setNet i (flushRounds (kernel i) 1 (s.net i)).2)
  | .endOfFile i =>
    if (s.sock i).writable ∧ (s.sock i).endOfFile = false then
      some (s.setNet i ⟨s.pool, { s.sock i with endOfFile := true }⟩)
    else none
  | .destroy i => some (s.setNet i (destroy (s.net i)))
  | .connect i =>
    if (s.sock i).connecting ∧ (s.sock i).destroyed = false then
      some (s.setNet i (onConnect (s.net i)))
    else none
  | .read i recv emits => some (onReadable s i recv emits)

/-- Whether `_writeOut` uses the pool for this data. -/
def fills (n : State) : Option Data → Bool
  | some (.str _) => n.sock.writable
  | _ => false

/-- The data that a `write` hands over at once. -/
def handedOver (n : State) (data : Data) : Option Data :=
  if n.sock.connecting ∨ n.sock.queue ≠ [] ∨ n.sock.endOfFile then none else some data

def World.fills (s : World) : Action → Bool
  | .write i data _ _ _ => Regions.fills (s.net i) (handedOver (s.net i) data)
  | .flush i => Regions.fills (s.net i) ((s.sock i).queue.head?.map Entry.data)
  | .read _ _ _ => true
  | _ => false

/-- If the action uses the pool, then it finds that enough of it is left. -/
def Roomy (s : World) (a : Action) : Prop :=
  s.fills a = true → s.pool.count ≠ 0 ∧ kMinPoolSpace ≤ kPoolSize - s.pool.used

/-! ### What one operation does to the pool and the queue -/

theorem entry_frozen_keeps {p p' : Pool} {e : Entry} (h : e.Frozen p) (hp : p.Keeps p') :
    e.Frozen p' := by
  obtain ⟨data, encoding, cb⟩ := e
  cases data with
  | str s => trivial
  | buf b => exact (Buf.Frozen.keeps h hp).1

/-- What was given away of `p` is as it was, and the queue refers to nothing else of the pool. -/
structure Kept (p : Pool) (n : State) : Prop where
  keeps : p.Keeps n.pool
  frozen : ∀ e ∈ n.sock.queue, e.Frozen n.pool

theorem Kept.later {p : Pool} {n n' : State} (h : Kept p n) (hpool : n.pool.Keeps n'.pool)
    (hqueue : ∀ e ∈ n'.sock.queue, e ∈ n.sock.queue) : Kept p n' :=
  ⟨h.keeps.trans hpool, fun e he => entry_frozen_keeps (h.frozen e (hqueue e he)) hpool⟩

theorem kept_destroy {p : Pool} {n : State} (h : p.Keeps n.pool) : Kept p (destroy n) :=
  ⟨h, fun _ he => absurd he List.not_mem_nil⟩

section
variable {kernel : Kernel} {p : Pool} {n : State}

theorem writeImpl_frame (kernel : Kernel) (n : State) (buffer : Buf) (off len : ℕ)
    (fd : Option ℕ) :
    (writeImpl kernel n buffer off len fd).2.pool = n.pool ∧
      (writeImpl kernel n buffer off len fd).2.sock.queue = n.sock.queue := by
  unfold writeImpl
  dsimp only
  split_ifs
  · exact ⟨rfl, rfl⟩
  · exact ⟨rfl, rfl⟩
  all_goals
    cases kernel.write n.sock.calls len <;> exact ⟨rfl, rfl⟩

theorem runCallback_frame (n : State) (cb : Option Callback) :
    (runCallback n cb).2.pool = n.pool ∧ (runCallback n cb).2.sock.queue = n.sock.queue := by
  match cb with
  | none => exact ⟨rfl, rfl⟩
  | some (.user id) => exact ⟨rfl, rfl⟩
  | some .merged => exact ⟨rfl, rfl⟩

theorem send_kept (h : Kept p n) {buffer : Buf} {off len : ℕ} (fd : Option ℕ)
    (cb : Option Callback) (queuedData : Bool)
    (hfull : buffer = .pool n.pool.current →
      Kept p ⟨{ n.pool with used := n.pool.used - len }, n.sock⟩)
    (hleft : off + len ≤ buffer.length →
      ∀ s, off ≤ s → (buffer.slice s (off + len)).Frozen n.pool) :
    Kept p (send kernel n buffer off len fd cb queuedData).2 ∧
      (send kernel n buffer off len fd cb queuedData).2.pool.count = n.pool.count := by
  obtain ⟨hpool, hqueue⟩ := writeImpl_frame kernel n buffer off len fd
  have hbounds : (writeImpl kernel n buffer off len fd).1 = none ∨ off + len ≤ buffer.length :=
    (writeImpl_spec kernel n buffer off len fd).imp id And.left
  unfold send
  generalize writeImpl kernel n buffer off len fd = x at hpool hqueue hbounds ⊢
  obtain ⟨count, n'⟩ := x
  dsimp only at hpool hqueue hbounds ⊢
  have hsame : Kept p n' := h.later (hpool ▸ .refl _) fun e he => hqueue ▸ he
  match count, hbounds with
  | none, _ => exact ⟨kept_destroy hsame.keeps, congrArg Pool.count hpool⟩
  | some count, .inr hle =>
    dsimp only
    by_cases hcount : count = some len
    · rw [if_pos hcount]
      -- The pool gets back what was stored for this call.
      have hback : Kept p (if buffer = .pool n'.pool.current then
            { n' with pool := { n'.pool with used := n'.pool.used - len } } else n') ∧
          (if buffer = .pool n'.pool.current then
            { n' with pool := { n'.pool with used := n'.pool.used - len } } else n').pool.count =
              n.pool.count := by
        split_ifs with hbuffer
        · rw [hpool] at hbuffer ⊢
          refine ⟨⟨(hfull hbuffer).keeps, fun e he => (hfull hbuffer).frozen e ?_⟩, rfl⟩
          exact hqueue ▸ he
        · exact ⟨hsame, congrArg Pool.count hpool⟩
      generalize (if buffer = .pool n'.pool.current then
          { n' with pool := { n'.pool with used := n'.pool.used - len } } else n') = n₁ at hback ⊢
      cases queuedData with
      | true => exact hback
      | false =>
        obtain ⟨hpool', hqueue'⟩ := runCallback_frame n₁ cb
        exact ⟨hback.1.later (hpool' ▸ .refl _) fun e he => hqueue' ▸ he,
          (congrArg Pool.count hpool').trans hback.2⟩
    · rw [if_neg hcount]
      have hfrozen := hleft hle (off + count.getD 0) (Nat.le_add_right _ _)
      rw [← hpool] at hfrozen
      refine ⟨⟨hsame.keeps, fun e he => ?_⟩, congrArg Pool.count hpool⟩
      have hmem : e = ⟨.buf (buffer.slice (off + count.getD 0) (off + len)), none, cb⟩ ∨
          e ∈ n'.sock.queue := by
        unfold Socket.unshiftLeft at he
        dsimp only at he
        split_ifs at he <;> exact List.mem_cons.mp he
      rcases hmem with rfl | hmem
      · exact hfrozen
      · exact hsame.frozen e hmem

/-- A string that is placed in the pool belongs to this call, whatever is queued behind it. -/
theorem send_place_kept (h : Kept p n) (w : Written) {sock : Socket} (fd : Option ℕ)
    (cb : Option Callback) (queuedData : Bool)
    (hsock : ∀ e ∈ sock.queue, (∃ str, e.data = .str str) ∨ e ∈ n.sock.queue) :
    Kept p (send kernel ⟨n.pool.ensure.place w, sock⟩ (.pool n.pool.ensure.current)
        n.pool.ensure.used w.written fd cb queuedData).2 ∧
      (send kernel ⟨n.pool.ensure.place w, sock⟩ (.pool n.pool.ensure.current)
        n.pool.ensure.used w.written fd cb queuedData).2.pool.count = n.pool.ensure.count := by
  obtain ⟨hcount, -⟩ := ensure_room n.pool
  have hstore : n.pool.Keeps (n.pool.ensure.store w.stored) :=
    (keeps_ensure n.pool).trans (keeps_store _ _)
  have hkept : ∀ pool : Pool, n.pool.Keeps pool → Kept p ⟨pool, sock⟩ := by
    intro pool hpool
    refine ⟨h.keeps.trans hpool, fun e he => ?_⟩
    rcases hsock e he with ⟨str, hstr⟩ | he
    · unfold Entry.Frozen
      rw [hstr]
      trivial
    · exact entry_frozen_keeps (h.frozen e he) hpool
  refine send_kept (hkept _ (hstore.trans (keeps_advance _ _))) fd cb queuedData (fun _ => ?_)
    fun _ s _ i _ hi => ⟨Nat.sub_lt (Nat.pos_of_ne_zero hcount) one_pos, fun _ => hi⟩
  have hback : n.pool.Keeps { n.pool.ensure.place w with
      used := (n.pool.ensure.place w).used - w.written } := by
    rw [place_release]
    exact hstore
  exact hkept _ hback

theorem writeOut_kept (h : Kept p n) {data : Data} (encoding : EncArg) (fd : Option ℕ)
    (cb : Option Callback) (hdata : ∀ b, data = .buf b → b.Frozen n.pool) :
    Kept p (writeOut kernel n data encoding fd cb).2 ∧
      (writeOut kernel n data encoding fd cb).2.pool.count =
        if fills n (some data) then n.pool.ensure.count else n.pool.count := by
  unfold writeOut
  by_cases hwritable : n.sock.writable = false
  · rw [if_pos hwritable]
    unfold fills
    rw [hwritable]
    cases data <;> exact ⟨h, rfl⟩
  rw [if_neg hwritable]
  cases data with
  | buf buffer =>
    refine send_kept h fd cb false (fun hbuffer => ?_) fun hle s hs => ?_
    · exact (hbuffer ▸ hdata buffer rfl).elim
    · rw [Nat.zero_add]
      exact (hdata buffer rfl).slice (Nat.le_refl _)
  | str s =>
    have hfills : fills n (some (.str s)) = true := Bool.eq_true_of_not_eq_false hwritable
    rw [if_pos hfills]
    dsimp only
    cases hwrite : bufferWrite kPoolSize s n.pool.ensure.used encoding.encoding with
    | error e => exact ⟨h.later (keeps_ensure _) fun _ => id, rfl⟩
    | ok w =>
      dsimp only
      by_cases hzero : s.length > 0 ∧ w.written = 0
      · rw [if_pos hzero]
        exact ⟨h.later ((keeps_ensure _).trans (keeps_store _ _)) fun _ => id, rfl⟩
      rw [if_neg hzero]
      by_cases hchars : w.charsWritten ≠ s.length
      · rw [if_pos hchars]
        refine send_place_kept h w fd cb true fun e he => ?_
        rcases List.mem_cons.mp he with rfl | he
        · exact .inl ⟨_, rfl⟩
        · exact .inr he
      · rw [if_neg hchars]
        exact send_place_kept h w fd cb false fun e he => .inr he

variable (kernel) in
theorem write_kept (h : Kept p n) {data : Data} (encoding : EncArg) (fd : Option ℕ)
    (cb : Option Callback) (hdata : ∀ b, data = .buf b → b.Frozen n.pool) :
    Kept p (write kernel n data encoding fd cb).2 ∧
      (write kernel n data encoding fd cb).2.pool.count =
        if fills n (handedOver n data) then n.pool.ensure.count else n.pool.count := by
  unfold write handedOver
  by_cases hqueue : n.sock.connecting = true ∨ n.sock.queue ≠ [] ∨ n.sock.endOfFile = true
  · have hnone : ¬ fills n none = true := Bool.false_ne_true
    rw [if_pos hqueue, if_pos hqueue, if_neg hnone]
    split_ifs
    · exact ⟨h, rfl⟩
    · refine ⟨⟨h.keeps, ?_⟩, rfl⟩
      refine coalesce_frozen h.frozen ?_
      cases data with
      | str s => trivial
      | buf buffer => exact hdata buffer rfl
  · rw [if_neg hqueue, if_neg hqueue]
    exact writeOut_kept h encoding fd cb hdata

variable (kernel) in
theorem flush_kept (h : Kept p n) :
    Kept p (flushRounds kernel 1 n).2 ∧ (flushRounds kernel 1 n).2.pool.count =
      if fills n (n.sock.queue.head?.map Entry.data) then n.pool.ensure.count
      else n.pool.count := by
  cases hqueue : n.sock.queue with
  | nil =>
    have hnone : ¬ fills n none = true := Bool.false_ne_true
    unfold flushRounds
    rw [hqueue, List.head?_nil, Option.map_none, if_neg hnone]
    dsimp only
    split_ifs
    · unfold shutdown
      dsimp only
      split_ifs <;> first
        | exact ⟨kept_destroy h.keeps, rfl⟩
        | exact ⟨h.later (.refl _) fun _ => id, rfl⟩
    · exact ⟨h, rfl⟩
  | cons e queue =>
    have hfrozen := h.frozen
    rw [hqueue] at hfrozen
    obtain ⟨he, hrest⟩ := List.forall_mem_cons.mp hfrozen
    have hshift : Kept p { n with sock := n.sock.shift e queue } := ⟨h.keeps, hrest⟩
    rw [flushRounds_one hqueue]
    refine writeOut_kept hshift _ _ _ fun b hb => ?_
    unfold Entry.Frozen at he
    rw [hb] at he
    exact he

end

/-! ### What all the sockets keep -/

/-- Nothing that was given away of the pool is stored to again: the Buffers that listeners have, and
those in the queues. -/
structure Intact (s : World) : Prop where
  handed : ∀ b ∈ s.handed, b.Frozen s.pool
  queued : ∀ i, ∀ e ∈ (s.sock i).queue, e.Frozen s.pool

theorem Intact.kept {s : World} (h : Intact s) (i : ℕ) : Kept s.pool (s.net i) :=
  ⟨.refl _, h.queued i⟩

theorem Intact.setNet {s : World} (h : Intact s) {i : ℕ} {n : State} (hn : Kept s.pool n) :
    Intact (s.setNet i n) := by
  refine ⟨fun b hb => ((h.handed b hb).keeps hn.keeps).1, fun j e he => ?_⟩
  unfold World.setNet at he
  dsimp only at he
  by_cases hj : j = i
  · rw [hj, Function.update_self] at he
    exact hn.frozen e he
  · rw [Function.update_of_ne hj] at he
    exact entry_frozen_keeps (h.queued j e he) hn.keeps

theorem Intact.owned {s : World} (h : Intact s) {data : Data} (howns : s.owns data = true) {b : Buf}
    (hb : data = .buf b) : b.Frozen s.pool := by
  subst hb
  match b, howns with
  | .user bytes, _ => trivial
  | .window id start stop, howns =>
    obtain ⟨b', hb', hin⟩ := List.any_eq_true.mp howns
    match b', hin with
    | .window id' start' stop', hin =>
      obtain ⟨rfl, hstart, hstop⟩ := of_decide_eq_true hin
      have hfrozen := h.handed _ hb'
      exact fun i hi hi' => hfrozen i (Nat.le_trans hstart hi) (Nat.lt_of_lt_of_le hi' hstop)

theorem keeps_fill (p : Pool) (bytes : Bytes) : p.Keeps (fill p bytes) :=
  (keeps_store p _).trans (keeps_advance _ _)

theorem frozen_readRegion {p : Pool} (hcount : p.count ≠ 0) (bytes : Bytes) :
    (readRegion p bytes).Frozen (fill p bytes) :=
  fun _ _ hi => ⟨Nat.sub_lt (Nat.pos_of_ne_zero hcount) one_pos, fun _ => hi⟩

theorem intact_read {s : World} (h : Intact s) (i : ℕ) (recv : Recv) (emits : Bool) :
    Intact (onReadable s i recv emits) ∧ s.pool.Keeps (onReadable s i recv emits).pool ∧
      (onReadable s i recv emits).pool.count = s.pool.ensure.count := by
  have hensure := keeps_ensure s.pool
  have hnet : ∀ {pool : Pool}, s.pool.Keeps pool → ∀ {handed : List Buf},
      (∀ b ∈ handed, b.Frozen pool) → Intact { s with pool := pool, handed := handed } :=
    fun hpool _ hhanded => ⟨hhanded, fun j e he => entry_frozen_keeps (h.queued j e he) hpool⟩
  have hold : ∀ {pool : Pool}, s.pool.Keeps pool → ∀ b ∈ s.handed, b.Frozen pool :=
    fun hpool b hb => ((h.handed b hb).keeps hpool).1
  match recv with
  | .failed => exact ⟨h.setNet (kept_destroy hensure), hensure, rfl⟩
  | .again => exact ⟨hnet hensure (hold hensure), hensure, rfl⟩
  | .read [] =>
    have hkept : Kept s.pool ⟨s.pool.ensure, { s.sock i with readable := false }⟩ :=
      (h.kept i).later hensure fun _ => id
    unfold onReadable
    dsimp only
    split_ifs
    · exact ⟨h.setNet hkept, hensure, rfl⟩
    · exact ⟨h.setNet (kept_destroy hensure), hensure, rfl⟩
  | .read (b :: bytes) =>
    obtain ⟨hcount, -⟩ := ensure_room s.pool
    have hfill := hensure.trans (keeps_fill s.pool.ensure (b :: bytes))
    refine ⟨hnet hfill ?_, hfill, rfl⟩
    split_ifs
    · refine List.forall_mem_append.mpr ⟨hold hfill, List.forall_mem_singleton.mpr ?_⟩
      exact frozen_readRegion hcount _
    · exact hold hfill

theorem intact_step {kernel : ℕ → Kernel} {s s' : World} {a : Action} (h : Intact s)
    (hstep : step kernel s a = some s') :
    Intact s' ∧ s.pool.Keeps s'.pool ∧
      s'.pool.count = if s.fills a then s.pool.ensure.count else s.pool.count := by
  have hsame : ∀ (i : ℕ) {sock : Socket}, (∀ e ∈ sock.queue, e ∈ (s.sock i).queue) →
      Intact (s.setNet i ⟨s.pool, sock⟩) :=
    fun i _ hqueue => h.setNet ((h.kept i).later (.refl _) hqueue)
  cases a with
  | write i data encoding fd cb =>
    unfold step at hstep
    dsimp only at hstep
    split_ifs at hstep with howns
    obtain rfl := Option.some.inj hstep
    obtain ⟨hkept, hcount⟩ := write_kept (kernel i) (h.kept i) encoding fd
      (cb.map .user) fun b hb => h.owned howns hb
    exact ⟨h.setNet hkept, hkept.keeps, hcount⟩
  | flush i =>
    obtain rfl := Option.some.inj hstep
    obtain ⟨hkept, hcount⟩ := flush_kept (kernel i) (h.kept i)
    exact ⟨h.setNet hkept, hkept.keeps, hcount⟩
  | endOfFile i =>
    unfold step at hstep
    dsimp only at hstep
    split_ifs at hstep
    obtain rfl := Option.some.inj hstep
    exact ⟨hsame i fun _ => id, .refl _, rfl⟩
  | destroy i =>
    obtain rfl := Option.some.inj hstep
    exact ⟨h.setNet (kept_destroy (.refl _)), .refl _, rfl⟩
  | connect i =>
    unfold step at hstep
    dsimp only at hstep
    split_ifs at hstep
    obtain rfl := Option.some.inj hstep
    exact ⟨hsame i fun _ => id, .refl _, rfl⟩
  | read i recv emits =>
    obtain rfl := Option.some.inj hstep
    exact intact_read h i recv emits

theorem intact_new (pool : Pool) (unix connecting : ℕ → Bool) :
    Intact (.new pool unix connecting) :=
  ⟨fun _ hb => absurd hb List.not_mem_nil, fun _ _ he => absurd he List.not_mem_nil⟩

theorem intact_reach {kernel : ℕ → Kernel} {s s' : World} (h : Intact s)
    (hreach : Reach (step kernel) (fun _ _ => True) s s') :
    Intact s' ∧ s.pool.Keeps s'.pool := by
  refine hreach.invariant (P := fun s' => Intact s' ∧ s.pool.Keeps s'.pool) ⟨h, .refl _⟩ ?_
  intro s₁ a s₂ ⟨hintact, hkeeps⟩ _ hstep
  obtain ⟨hintact', hkeeps', -⟩ := intact_step hintact hstep
  exact ⟨hintact', hkeeps.trans hkeeps'⟩

/-- A Buffer that a `'data'` listener was given, or that waits in the queue of a socket, is not
changed by anything that happens later, and nothing is stored to it. -/
theorem region_kept (kernel : ℕ → Kernel) (pool : Pool) (unix connecting : ℕ → Bool)
    {s s' : World} (h : Reach (step kernel) (fun _ _ => True) (.new pool unix connecting) s)
    (h' : Reach (step kernel) (fun _ _ => True) s s') {b : Buf}
    (hb : b ∈ s.handed ∨ ∃ i, ∃ e ∈ (s.sock i).queue, e.data = .buf b) :
    b.Frozen s'.pool ∧ b.bytes s'.pool = b.bytes s.pool := by
  obtain ⟨hintact, -⟩ := intact_reach (intact_new pool unix connecting) h
  obtain ⟨-, hkeeps⟩ := intact_reach hintact h'
  have hfrozen : b.Frozen s.pool := by
    rcases hb with hb | ⟨i, e, he, hdata⟩
    · exact hintact.handed b hb
    · have he' := hintact.queued i e he
      unfold Entry.Frozen at he'
      rw [hdata] at he'
      exact he'
  exact hfrozen.keeps hkeeps

/-- One socket reads two bytes and gives them to a listener. Then another one writes and reads. -/
theorem region_kept_two : ∃ s s', run (step fun _ => takeAll)
      (.new ⟨fun _ _ => 0, 0, 0⟩ (fun _ => false) fun _ => false) [.read 0 (.read [1, 2]) true] =
        some s ∧
      run (step fun _ => takeAll) s
        [.write 1 (.str [0x78]) none none none, .read 1 (.read [3]) true] = some s' ∧
      (Buf.window 0 0 2).Frozen s'.pool ∧
        (Buf.window 0 0 2).bytes s'.pool = (Buf.window 0 0 2).bytes s.pool := by
  obtain ⟨s, hs, hhanded, s', hs'⟩ : ∃ s, run (step fun _ => takeAll)
      (.new ⟨fun _ _ => 0, 0, 0⟩ (fun _ => false) fun _ => false) [.read 0 (.read [1, 2]) true] =
        some s ∧ s.handed = [Buf.window 0 0 2] ∧ ∃ s', run (step fun _ => takeAll) s
        [.write 1 (.str [0x78]) none none none, .read 1 (.read [3]) true] = some s' :=
    ⟨_, rfl, rfl, _, rfl⟩
  have hmem : Buf.window 0 0 2 ∈ s.handed := by
    rw [hhanded]
    exact List.mem_singleton_self _
  exact ⟨s, s', hs, hs', region_kept (fun _ => takeAll) _ _ _ (reach_of_run hs fun _ _ => trivial)
    (reach_of_run hs' fun _ _ => trivial) (.inl hmem)⟩

/-! ### What `ondata` is given -/

/-- What `ondata` is given when the listeners have returned: the module's `pool`, and the end points
from before they were called. -/
def ondata (s : World) (start stop : ℕ) : Buf := .window s.pool.current start stop

/-- What the kernel has returned for a read into `p`. -/
def received (p : Pool) (bytes : Bytes) : Bytes := bytes.take (kPoolSize - p.used)

/-- `ondata` is given the part of the pool that the listeners were given, with the bytes of the
read. -/
def SeesRead (p : Pool) (bytes : Bytes) (s : World) : Prop :=
  ondata s p.used (p.used + (received p bytes).length) = readRegion p bytes ∧
    (ondata s p.used (p.used + (received p bytes).length)).bytes s.pool = received p bytes

theorem read_fill (p : Pool) (bytes : Bytes) :
    (readRegion p bytes).bytes (fill p bytes) = received p bytes := by
  have hread := read_store (p := p) (Nat.le_refl (received p bytes).length)
  rw [List.take_length] at hread
  unfold readRegion Buf.bytes Buf.read Buf.length
  dsimp only
  rw [Nat.add_zero, Nat.add_sub_cancel_left]
  exact hread

theorem count_ensure (p : Pool) : p.count ≤ p.ensure.count ∧
    (p.ensure.count = p.count ↔ p.count ≠ 0 ∧ kMinPoolSpace ≤ kPoolSize - p.used) := by
  unfold Pool.ensure
  split_ifs with hnew
  · refine ⟨Nat.le_succ _, fun h => absurd h (Nat.succ_ne_self _), fun h => ?_⟩
    exact absurd hnew (not_or.mpr ⟨h.1, Nat.not_lt.mpr h.2⟩)
  · rw [not_or, Nat.not_lt] at hnew
    exact ⟨Nat.le_refl _, fun _ => hnew, fun _ => rfl⟩

theorem count_step {kernel : ℕ → Kernel} {s s' : World} {a : Action} (h : Intact s)
    (hstep : step kernel s a = some s') :
    s.pool.count ≤ s'.pool.count ∧ (s'.pool.count = s.pool.count ↔ Roomy s a) := by
  obtain ⟨hle, hiff⟩ := count_ensure s.pool
  obtain ⟨-, -, hcount⟩ := intact_step h hstep
  rw [hcount]
  unfold Roomy
  by_cases hfills : s.fills a = true
  · rw [if_pos hfills]
    exact ⟨hle, hiff.trans ⟨fun h _ => h, fun h => h hfills⟩⟩
  · rw [if_neg hfills]
    exact ⟨Nat.le_refl _, fun _ hfills' => absurd hfills' hfills, fun _ => rfl⟩

/-- The pool is never replaced in a run exactly when there is room at every step. -/
theorem count_run {kernel : ℕ → Kernel} {s s' : World} {as : List Action} (h : Intact s)
    (hrun : run (step kernel) s as = some s') :
    s.pool.count ≤ s'.pool.count ∧
      (s'.pool.count = s.pool.count ↔ Along (step kernel) (fun s a _ => Roomy s a) s as) := by
  induction as generalizing s with
  | nil =>
    obtain rfl := Option.some.inj hrun
    exact ⟨Nat.le_refl _, fun _ => trivial, fun _ => rfl⟩
  | cons a as ih =>
    obtain ⟨s₁, hstep, hrest⟩ := Option.bind_eq_some_iff.mp hrun
    obtain ⟨hintact, -⟩ := intact_step h hstep
    obtain ⟨hle₁, hiff₁⟩ := count_step h hstep
    obtain ⟨hle₂, hiff₂⟩ := ih hintact hrest
    refine ⟨Nat.le_trans hle₁ hle₂, fun hcount => ?_, fun halong => ?_⟩
    · exact along_cons hstep (hiff₁.mp (by omega)) (hiff₂.mp (by omega))
    · obtain ⟨hroomy, hrest'⟩ := halong s₁ hstep
      have hcount₁ := hiff₁.mpr hroomy
      have hcount₂ := hiff₂.mpr hrest'
      omega

/-- What `ondata` sees is what was read exactly when nothing that the listeners do finds the pool
too full. -/
theorem seesRead_iff (kernel : ℕ → Kernel) (pool : Pool) (unix connecting : ℕ → Bool)
    {s s' : World} (h : Reach (step kernel) (fun _ _ => True) (.new pool unix connecting) s)
    (i : ℕ) {bytes : Bytes} (hbytes : bytes ≠ []) (emits : Bool) {as : List Action}
    (hrun : run (step kernel) (onReadable s i (.read bytes) emits) as = some s') :
    SeesRead s.pool.ensure bytes s' ↔ Along (step kernel) (fun s a _ => Roomy s a)
      (onReadable s i (.read bytes) emits) as := by
  obtain ⟨hintact, -⟩ := intact_reach (intact_new pool unix connecting) h
  obtain ⟨hintact₁, -, hcount₁⟩ := intact_read hintact i (.read bytes) emits
  obtain ⟨hcount, -⟩ := ensure_room s.pool
  obtain ⟨hle, hiff⟩ := count_run hintact₁ hrun
  have hfill : (onReadable s i (.read bytes) emits).pool = fill s.pool.ensure bytes := by
    cases bytes with
    | nil => exact absurd rfl hbytes
    | cons b bytes => rfl
  have hwindow : ondata s' s.pool.ensure.used (s.pool.ensure.used +
      (received s.pool.ensure bytes).length) = readRegion s.pool.ensure bytes ↔
        s'.pool.count = (onReadable s i (.read bytes) emits).pool.count := by
    have hcurrent : s'.pool.current = s.pool.ensure.current ↔
        s'.pool.count = (onReadable s i (.read bytes) emits).pool.count := by
      unfold Pool.current
      omega
    rw [← hcurrent]
    refine ⟨fun heq => (Buf.window.inj heq).1, fun heq => ?_⟩
    unfold ondata
    rw [heq]
    rfl
  rw [← hiff, ← hwindow]
  refine ⟨And.left, fun hregion => ⟨hregion, ?_⟩⟩
  have hreach : Reach (step kernel) (fun _ _ => True) (onReadable s i (.read bytes) emits) s' :=
    reach_of_run hrun fun _ _ => trivial
  have hkeeps := (intact_reach hintact₁ hreach).2
  rw [hfill] at hkeeps
  rw [hregion, ((frozen_readRegion hcount bytes).keeps hkeeps).2, read_fill]

/-- A new pool, which is not replaced when the listener writes a string. -/
theorem seesRead_iff_new : ∃ s', run (step fun _ => takeAll) (onReadable
      (.new ⟨fun _ _ => 0, 0, 0⟩ (fun _ => false) fun _ => false) 0 (.read [1, 2]) true)
        [.write 1 (.str [0x78]) none none none] = some s' ∧
      SeesRead (Pool.ensure ⟨fun _ _ => 0, 0, 0⟩) [1, 2] s' := by
  obtain ⟨s', hs'⟩ : ∃ s', run (step fun _ => takeAll) (onReadable
      (.new ⟨fun _ _ => 0, 0, 0⟩ (fun _ => false) fun _ => false) 0 (.read [1, 2]) true)
        [.write 1 (.str [0x78]) none none none] = some s' := ⟨_, rfl⟩
  refine ⟨s', hs', (seesRead_iff (fun _ => takeAll) _ _ _ .refl 0 (List.cons_ne_nil _ _) true
    hs').mpr (along_cons rfl (fun _ => ?_) trivial)⟩
  decide

def almostFull : Pool := ⟨fun _ _ => 0, 1, 40831⟩

/-- Two bytes are read, and the listener of one socket writes a string on another one. -/
theorem not_seesRead : ¬ ∀ (s : World) (as : List Action) (s' : World),
    Reach (step fun _ => takeAll) (fun _ _ => True)
        (.new almostFull (fun _ => false) fun _ => false) s →
      run (step fun _ => takeAll) (onReadable s 0 (.read [1, 2]) true) as = some s' →
        (ondata s' s.pool.ensure.used (s.pool.ensure.used +
          (received s.pool.ensure [1, 2]).length)).bytes s'.pool = received s.pool.ensure [1, 2] := by
  intro h
  obtain ⟨s', hs', hcurrent, hmem⟩ : ∃ s', run (step fun _ => takeAll) (onReadable
        (.new almostFull (fun _ => false) fun _ => false) 0 (.read [1, 2]) true)
      [.write 1 (.str [0x78]) none none none] = some s' ∧ s'.pool.current = 1 ∧
        s'.pool.mem 1 40831 = 0 := ⟨_, rfl, rfl, rfl⟩
  have hused : (World.new almostFull (fun _ => false) fun _ => false).pool.ensure.used = 40831 := rfl
  have hreceived : received (World.new almostFull (fun _ => false) fun _ => false).pool.ensure
      [1, 2] = [1, 2] := rfl
  have hbytes : (ondata s' 40831 (40831 + [(1 : UInt8), 2].length)).bytes s'.pool =
      [s'.pool.mem 1 40831, s'.pool.mem 1 40832] := by
    unfold ondata
    rw [hcurrent]
    simp [Buf.bytes, Buf.read, Buf.length, List.range']
  have hsame := h _ _ s' .refl hs'
  rw [hused, hreceived, hbytes, hmem] at hsame
  exact absurd (List.cons.inj hsame).1 (by decide)

end NodeJS.Net.Regions
