import NodeJS.Buffer.Encoding
import NodeJS.Lib.Bump
import NodeJS.Lib.Memory
import NodeJS.Lib.Reach

/-! All datagram sockets, the pool they receive into, and the Buffers that `'message'` listeners are
given. -/
namespace NodeJS.Dgram
open Lib

def minPoolAvail : ℕ := 1024 * 8

def poolSize : ℕ := 1024 * 64

/-- What a round of the loop in `watcher.callback` has in `p`, `p.used` and `rinfo.size`, and so the
Buffer that it emits. -/
structure Message where
  pool : ℕ
  start : ℕ
  size : ℕ

def Message.region (m : Message) : Region ℕ := ⟨m.pool, m.start, m.size⟩

/-- A call of `watcher.callback`. It is at the head of its loop, or its listeners run. -/
structure Call where
  socket : ℕ
  message : Option Message

/-- The module. Pools have numbers, the last one is `pool`, which is null before there are any.
`sockets` has the descriptor of each, null after `close`. The Buffers that were emitted are kept,
and the messages whose listeners have ended but have not moved the mark past them. -/
structure State where
  pools : ℕ := 0
  used : ℕ → ℕ := fun _ => 0
  memory : Memory ℕ UInt8
  sockets : List (Option ℕ) := []
  stack : List Call := []
  emitted : List (Region ℕ) := []
  left : List Message := []

namespace State

def pool (s : State) : ℕ := s.pools - 1

/-- `getPool`, after which `pool` is what it returns. -/
def getPool (s : State) : State :=
  if s.pools = 0 ∨ s.used s.pool + minPoolAvail > poolSize then
    { s with pools := s.pools + 1, used := Function.update s.used s.pools 0 }
  else s

/-- A descriptor for which `while (self.fd)` goes on. -/
def running (s : State) (i : ℕ) : Bool :=
  match s.sockets[i]? with
  | some (some fd) => fd ≠ 0
  | _ => false

/-- The program runs: the event loop has called it, or a listener was called. -/
def program (s : State) : Bool :=
  match s.stack with
  | [] => true
  | c :: _ => c.message.isSome

/-- The messages that the mark may not have been moved past. -/
def unsettled (s : State) : List Message := s.stack.filterMap Call.message ++ s.left

end State

/-- What the system call comes to. A datagram is cut to the room there is. -/
inductive Kernel
  | failed
  | again
  | datagram (bytes : Bytes)

/-- What `recvfrom` comes to: an exception, null, or the bytes that were put into the buffer. -/
inductive Received
  | threw
  | null
  | bytes (bytes : Bytes)

def recvfrom (kernel : Kernel) (length off len : ℕ) : Received :=
  -- Offset is out of bounds
  if off ≥ length then .threw
  -- Length is extends beyond buffer
  else if off + len > length then .threw
  else
    match kernel with
    | .failed => .threw
    | .again => .null
    | .datagram bytes => .bytes (bytes.take len)

inductive Action
  /-- `new Socket`, for which the kernel has a descriptor or not. -/
  | create (fd : Option ℕ)
  | close (i : ℕ)
  /-- `watcher.callback`, which the event loop calls, or a listener. -/
  | callback (i : ℕ)
  /-- A round of the loop up to the listeners. -/
  | receive (kernel : Kernel)
  /-- The listeners have returned, with `size` in `rinfo.size`, and the mark is moved. -/
  | returned (size : ℕ)
  /-- A listener throws and does not catch it, and `watcher.callback` ends. -/
  | threw

/-- What `recvfrom` is called for in a round that gets that far, and comes to. -/
def State.received (s : State) (kernel : Kernel) : Received :=
  recvfrom kernel poolSize (s.getPool.used s.getPool.pool)
    (poolSize - s.getPool.used s.getPool.pool)

/-- The round of the loop for the call `c`, `rest` being below it. -/
def State.receive (s : State) (kernel : Kernel) (i : ℕ) (rest : List Call) : State :=
  if s.running i then
    let p := s.getPool
    match s.received kernel with
    | .threw | .null => { p with stack := rest }
    | .bytes bytes =>
      let m : Message := ⟨p.pool, p.used p.pool, bytes.length⟩
      { p with
        memory := p.memory.store m.pool m.start bytes
        stack := ⟨i, some m⟩ :: rest
        emitted := m.region :: p.emitted }
  else { s with stack := rest }

def step (s : State) : Action → Option State
  | .create fd =>
    if s.program then
      match fd with
      | none => some s
      | some fd => some { s with sockets := s.sockets ++ [some fd] }
    else none
  | .close i =>
    if s.program ∧ i < s.sockets.length then
      -- Not running
      if s.running i then some { s with sockets := s.sockets.set i none } else some s
    else none
  | .callback i =>
    if s.program ∧ i < s.sockets.length then some { s with stack := ⟨i, none⟩ :: s.stack }
    else none
  | .receive kernel =>
    match s.stack with
    | ⟨i, none⟩ :: rest => some (s.receive kernel i rest)
    | _ => none
  | .returned size =>
    match s.stack with
    | ⟨i, some m⟩ :: rest =>
      some { s with
        used := Function.update s.used m.pool (s.used m.pool + size)
        stack := ⟨i, none⟩ :: rest
        left := if size < m.size then m :: s.left else s.left }
    | _ => none
  | .threw =>
    match s.stack with
    | ⟨_, some m⟩ :: rest => some { s with stack := rest, left := m :: s.left }
    | _ => none

/-- The part of a pool that `recvfrom` stores to in this step. -/
def State.stores (s : State) : Action → Option Message
  | .receive kernel =>
    match s.stack with
    | ⟨i, none⟩ :: _ =>
      if s.running i then
        match s.received kernel with
        | .threw | .null => none
        | .bytes bytes => some ⟨s.getPool.pool, s.getPool.used s.getPool.pool, bytes.length⟩
      else none
    | _ => none
  | _ => none

/-- No byte of a Buffer that was emitted is stored to. -/
def Spares (s : State) (a : Action) : Prop :=
  ∀ w, s.stores a = some w → ∀ r ∈ s.emitted, r.Disjoint w.region

/-- If a datagram that is not empty is received, then the pool has no other one whose listeners
still run, or whose listeners have ended by an exception or made `rinfo.size` smaller. -/
def Settled (s : State) (a : Action) : Prop :=
  ∀ w, s.stores a = some w → w.size ≠ 0 → ∀ m ∈ s.unsettled, m.pool = w.pool → m.size = 0

/-- The listeners that return have left `rinfo.size` as it was. -/
def KeepsSize (s : State) (a : Action) : Prop :=
  ∀ size, a = .returned size → ∀ i m rest, s.stack = ⟨i, some m⟩ :: rest → size = m.size

/-! ### The pool -/

theorem getPool_frame (s : State) :
    s.getPool.memory = s.memory ∧ s.getPool.sockets = s.sockets ∧ s.getPool.stack = s.stack ∧
      s.getPool.emitted = s.emitted ∧ s.getPool.left = s.left := by
  unfold State.getPool
  split_ifs <;> exact ⟨rfl, rfl, rfl, rfl, rfl⟩

theorem getPool_room (s : State) :
    s.getPool.used s.getPool.pool + minPoolAvail ≤ poolSize ∧ s.getPool.pools ≠ 0 := by
  unfold State.getPool
  split_ifs with hnew
  · simp [State.pool, minPoolAvail, poolSize]
  · rw [not_or, Nat.not_lt] at hnew
    exact ⟨hnew.2, hnew.1⟩

/-- A pool is there already, or there is a new one. -/
theorem getPool_cases (s : State) : (s.pools ≠ 0 ∧ s.getPool = s) ∨
    (s.getPool.pools = s.pools + 1 ∧ s.getPool.used = Function.update s.used s.pools 0) := by
  unfold State.getPool
  split_ifs with hnew
  · exact .inr ⟨rfl, rfl⟩
  · exact .inl ⟨(not_or.mp hnew).1, rfl⟩

/-- The arguments pass the checks of `recvfrom`. -/
theorem received_datagram (s : State) (bytes : Bytes) :
    s.received (.datagram bytes) =
      .bytes (bytes.take (poolSize - s.getPool.used s.getPool.pool)) := by
  have hroom := (getPool_room s).1
  unfold minPoolAvail at hroom
  unfold State.received recvfrom
  rw [if_neg (by omega), if_neg (by omega)]

/-! ### What a step does -/

/-- `p` is the state with the pools after the step. -/
inductive Effect (s : State) (a : Action) (s' : State) : Prop
  | quiet (p : State) (hp : p = s ∨ p = s.getPool) (hstores : s.stores a = none)
      (hpools : s'.pools = p.pools) (hused : s'.used = p.used) (hmemory : s'.memory = s.memory)
      (hemitted : s'.emitted = s.emitted) (hunsettled : s'.unsettled.Perm s.unsettled)
      (hsize : ∀ size, a ≠ .returned size)
  | emitted (m : Message) (bytes : Bytes) (hstores : s.stores a = some m)
      (hpool : m.pool = s.getPool.pool) (hstart : m.start = s.getPool.used m.pool)
      (hbytes : bytes.length = m.size) (hpools : s'.pools = s.getPool.pools)
      (hused : s'.used = s.getPool.used)
      (hmemory : s'.memory = s.memory.store m.pool m.start bytes)
      (hemitted : s'.emitted = m.region :: s.emitted)
      (hunsettled : s'.unsettled = m :: s.unsettled) (hsize : ∀ size, a ≠ .returned size)
  | returned (size : ℕ) (m : Message) (us : List Message) (hstores : s.stores a = none)
      (hpools : s'.pools = s.pools)
      (hused : s'.used = Function.update s.used m.pool (s.used m.pool + size))
      (hmemory : s'.memory = s.memory) (hemitted : s'.emitted = s.emitted)
      (hbefore : s.unsettled = m :: us)
      (hafter : s'.unsettled.Perm (if size < m.size then m :: us else us))
      (hsize : KeepsSize s a → size = m.size)

theorem effect_receive {s : State} {kernel : Kernel} {i : ℕ} {rest : List Call}
    (hstack : s.stack = ⟨i, none⟩ :: rest) :
    Effect s (.receive kernel) (s.receive kernel i rest) := by
  obtain ⟨hmemory, -, -, hemitted, hleft⟩ := getPool_frame s
  have hunsettled : s.unsettled = rest.filterMap Call.message ++ s.left := by
    unfold State.unsettled
    rw [hstack]
    rfl
  have hafter : rest.filterMap Call.message ++ s.getPool.left = s.unsettled := by
    rw [hleft, hunsettled]
  unfold State.receive
  cases hrunning : s.running i with
  | false =>
    refine .quiet s (.inl rfl) ?_ rfl rfl rfl rfl (.of_eq hunsettled.symm) nofun
    unfold State.stores
    rw [hstack]
    dsimp only
    rw [hrunning]
    rfl
  | true =>
    rw [if_pos rfl]
    dsimp only
    cases hreceived : s.received kernel with
    | threw =>
      refine .quiet s.getPool (.inr rfl) ?_ rfl rfl hmemory hemitted (.of_eq hafter) nofun
      unfold State.stores
      rw [hstack]
      dsimp only
      rw [hreceived, ite_self]
    | null =>
      refine .quiet s.getPool (.inr rfl) ?_ rfl rfl hmemory hemitted (.of_eq hafter) nofun
      unfold State.stores
      rw [hstack]
      dsimp only
      rw [hreceived, ite_self]
    | bytes bytes =>
      refine .emitted ⟨s.getPool.pool, s.getPool.used s.getPool.pool, bytes.length⟩ bytes ?_ rfl rfl
        rfl rfl rfl (by rw [hmemory]) (by rw [hemitted]) ?_ nofun
      · unfold State.stores
        rw [hstack]
        dsimp only
        rw [hreceived, if_pos hrunning]
      · exact congrArg (List.cons _) hafter

theorem effect_step {s s' : State} {a : Action} (hs : step s a = some s') : Effect s a s' := by
  cases a with
  | create fd =>
    unfold step at hs
    dsimp only at hs
    split_ifs at hs
    cases fd <;> obtain rfl := Option.some.inj hs <;>
      exact .quiet s (.inl rfl) rfl rfl rfl rfl rfl (.refl _) nofun
  | close i =>
    unfold step at hs
    dsimp only at hs
    split_ifs at hs <;> obtain rfl := Option.some.inj hs <;>
      exact .quiet s (.inl rfl) rfl rfl rfl rfl rfl (.refl _) nofun
  | callback i =>
    unfold step at hs
    dsimp only at hs
    split_ifs at hs
    obtain rfl := Option.some.inj hs
    exact .quiet s (.inl rfl) rfl rfl rfl rfl rfl (.refl _) nofun
  | receive kernel =>
    unfold step at hs
    dsimp only at hs
    split at hs
    · rename_i i rest hstack
      obtain rfl := Option.some.inj hs
      exact effect_receive hstack
    · exact nomatch hs
  | returned size =>
    unfold step at hs
    dsimp only at hs
    split at hs
    · rename_i i m rest hstack
      obtain rfl := Option.some.inj hs
      refine .returned size m (rest.filterMap Call.message ++ s.left) rfl rfl rfl rfl rfl ?_ ?_
        fun hkeeps => hkeeps size rfl i m rest hstack
      · unfold State.unsettled
        rw [hstack]
        rfl
      · unfold State.unsettled
        dsimp only
        split_ifs
        · exact List.perm_middle
        · exact .refl _
    · exact nomatch hs
  | threw =>
    unfold step at hs
    dsimp only at hs
    split at hs
    · rename_i i m rest hstack
      obtain rfl := Option.some.inj hs
      refine .quiet s (.inl rfl) rfl rfl rfl rfl rfl ?_ nofun
      unfold State.unsettled
      rw [hstack]
      exact List.perm_middle
    · exact nomatch hs

/-! ### The Buffers and the mark -/

/-- A Buffer lies below the mark of its pool, unless its message is not settled. -/
structure Covered (pools : ℕ) (used : ℕ → ℕ) (emitted : List (Region ℕ))
    (unsettled : List Message) : Prop where
  allocated : ∀ r ∈ emitted, r.arena < pools
  below : ∀ r ∈ emitted, r.start + r.size ≤ used r.arena ∨ ∃ m ∈ unsettled, m.region = r
  mark : ∀ m ∈ unsettled, m.start ≤ used m.pool
  mem : ∀ m ∈ unsettled, m.region ∈ emitted

namespace Covered
variable {pools : ℕ} {used used' : ℕ → ℕ} {emitted : List (Region ℕ)} {us us' : List Message}

theorem perm (h : Covered pools used emitted us) (hp : us'.Perm us) :
    Covered pools used emitted us' where
  allocated := h.allocated
  below := fun r hr => (h.below r hr).imp id fun ⟨m, hm, heq⟩ => ⟨m, hp.mem_iff.mpr hm, heq⟩
  mark := fun m hm => h.mark m (hp.mem_iff.mp hm)
  mem := fun m hm => h.mem m (hp.mem_iff.mp hm)

/-- The marks of the pools there are may move forward, and there may be more pools. -/
theorem advance (h : Covered pools used emitted us) {pools' : ℕ} (hpools : pools ≤ pools')
    (hused : ∀ p < pools, used p ≤ used' p) : Covered pools' used' emitted us where
  allocated := fun r hr => (h.allocated r hr).trans_le hpools
  below := fun r hr => (h.below r hr).imp
    (fun hle => hle.trans (Int.ofNat_le.mpr (hused _ (h.allocated r hr)))) id
  mark := fun m hm => (h.mark m hm).trans (hused _ (h.allocated _ (h.mem m hm)))
  mem := h.mem

theorem getPool {s : State} (h : Covered s.pools s.used emitted us) :
    Covered s.getPool.pools s.getPool.used emitted us := by
  rcases getPool_cases s with ⟨-, hsame⟩ | ⟨hpools, hused⟩
  · rw [hsame]
    exact h
  · rw [hpools, hused]
    refine h.advance (Nat.le_succ _) fun p hp => ?_
    rw [Function.update_of_ne hp.ne]

theorem emit (h : Covered pools used emitted us) {m : Message} (hpool : m.pool < pools)
    (hstart : m.start = used m.pool) : Covered pools used (m.region :: emitted) (m :: us) where
  allocated := List.forall_mem_cons.mpr ⟨hpool, h.allocated⟩
  below := List.forall_mem_cons.mpr ⟨.inr ⟨m, List.mem_cons_self, rfl⟩,
    fun r hr => (h.below r hr).imp id fun ⟨m', hm', heq⟩ => ⟨m', List.mem_cons_of_mem _ hm', heq⟩⟩
  mark := List.forall_mem_cons.mpr ⟨hstart.le, h.mark⟩
  mem := List.forall_mem_cons.mpr ⟨List.mem_cons_self,
    fun m' hm' => List.mem_cons_of_mem _ (h.mem m' hm')⟩

theorem returned {m : Message} {size : ℕ} (h : Covered pools used emitted (m :: us)) :
    Covered pools (Function.update used m.pool (used m.pool + size)) emitted
      (if size < m.size then m :: us else us) := by
  have hused : ∀ p < pools, used p ≤ Function.update used m.pool (used m.pool + size) p := by
    intro p _
    rcases eq_or_ne p m.pool with rfl | hp
    · rw [Function.update_self]
      exact Nat.le_add_right _ _
    · rw [Function.update_of_ne hp]
  have hadvanced := h.advance (Nat.le_refl pools) hused
  split_ifs with hsize
  · exact hadvanced
  · refine ⟨hadvanced.allocated, fun r hr => ?_,
      fun m' hm' => hadvanced.mark m' (List.mem_cons_of_mem _ hm'),
      fun m' hm' => hadvanced.mem m' (List.mem_cons_of_mem _ hm')⟩
    rcases hadvanced.below r hr with hle | ⟨m', hm', heq⟩
    · exact .inl hle
    · rcases List.mem_cons.mp hm' with rfl | hm'
      · left
        have hmark := h.mark m' List.mem_cons_self
        rw [← heq]
        unfold Message.region
        dsimp only
        rw [Function.update_self]
        omega
      · exact .inr ⟨m', hm', heq⟩

end Covered

def State.Covered (s : State) : Prop := Dgram.Covered s.pools s.used s.emitted s.unsettled

theorem covered_step {s s' : State} {a : Action} (h : s.Covered) (hs : step s a = some s') :
    s'.Covered := by
  unfold State.Covered at h ⊢
  cases effect_step hs with
  | quiet p hp _ hpools hused _ hemitted hunsettled _ =>
    rw [hpools, hused, hemitted]
    rcases hp with rfl | rfl
    · exact h.perm hunsettled
    · exact h.getPool.perm hunsettled
  | emitted m bytes _ hpool hstart _ hpools hused _ hemitted hunsettled _ =>
    rw [hpools, hused, hemitted, hunsettled]
    have hcurrent : m.pool < s.getPool.pools := by
      have hpools := (getPool_room s).2
      rw [hpool]
      unfold State.pool
      omega
    exact h.getPool.emit hcurrent hstart
  | returned size m us _ hpools hused _ hemitted hbefore hafter _ =>
    rw [hbefore] at h
    rw [hpools, hused, hemitted]
    exact h.returned.perm hafter

/-- The region of a round that stores is the one at the mark. -/
theorem stores_at {s s' : State} {a : Action} (hs : step s a = some s') {w : Message}
    (hw : s.stores a = some w) :
    w.pool = s.getPool.pool ∧ w.start = s.getPool.used w.pool := by
  cases effect_step hs with
  | quiet _ _ hstores => exact nomatch hstores.symm.trans hw
  | emitted m _ hstores hpool hstart =>
    obtain rfl := Option.some.inj (hstores.symm.trans hw)
    exact ⟨hpool, hstart⟩
  | returned _ _ _ hstores => exact nomatch hstores.symm.trans hw

theorem spares_of_settled {s s' : State} {a : Action} (h : s.Covered) (hs : step s a = some s')
    (hsettled : Settled s a) : Spares s a := by
  rintro w hw r hr p i ⟨⟨hrp, hrlo, hrhi⟩, hwp, hwlo, hwhi⟩
  obtain ⟨hpool, hstart⟩ := stores_at hs hw
  have hwp : w.pool = p := hwp
  have hwlo : (w.start : ℤ) ≤ i := hwlo
  have hwhi : i < w.start + w.size := hwhi
  have hsize : w.size ≠ 0 := by omega
  rcases h.getPool.below r hr with hbelow | ⟨m, hm, rfl⟩
  · rw [hrp, ← hwp, ← hstart] at hbelow
    omega
  · have hrp : m.pool = p := hrp
    have hrlo : (m.start : ℤ) ≤ i := hrlo
    have hrhi : i < m.start + m.size := hrhi
    have hempty := hsettled w hw hsize m hm (hrp.trans hwp.symm)
    omega

/-! ### The messages that are in the way of the next one -/

def owing (pool : ℕ) (us : List Message) : List Message :=
  us.filter fun m => m.pool = pool ∧ m.size ≠ 0

/-- There is at most one in the pool, and it starts at the mark. -/
structure Single (pool : ℕ) (used : ℕ → ℕ) (us : List Message) : Prop where
  one : (owing pool us).length ≤ 1
  mark : ∀ m ∈ owing pool us, m.start = used pool

theorem mem_owing {pool : ℕ} {us : List Message} {m : Message} :
    m ∈ owing pool us ↔ m ∈ us ∧ m.pool = pool ∧ m.size ≠ 0 := by
  unfold owing
  rw [List.mem_filter, decide_eq_true_iff]

namespace Single
variable {pool : ℕ} {used : ℕ → ℕ} {us us' : List Message}

theorem perm (h : Single pool used us) (hp : us'.Perm us) : Single pool used us' where
  one := (hp.filter _).length_eq.trans_le h.one
  mark := fun m hm => h.mark m ((hp.filter _).mem_iff.mp hm)

theorem of_none (h : ∀ m ∈ us, m.pool = pool → m.size = 0) : Single pool used us := by
  have hnil : owing pool us = [] := by
    refine List.eq_nil_iff_forall_not_mem.mpr fun m hm => ?_
    obtain ⟨hm, hpool, hsize⟩ := mem_owing.mp hm
    exact hsize (h m hm hpool)
  constructor <;> simp [hnil]

theorem getPool {s : State} (hcovered : s.Covered) (h : Single s.pool s.used s.unsettled) :
    Single s.getPool.pool s.getPool.used s.unsettled := by
  rcases getPool_cases s with ⟨-, hsame⟩ | ⟨hpools, -⟩
  · rw [hsame]
    exact h
  · refine of_none fun m hm hpool => ?_
    have hlt : m.pool < s.pools := hcovered.allocated _ (hcovered.mem m hm)
    unfold State.pool at hpool
    omega

theorem emit (h : Single pool used us) {m : Message} (hstart : m.start = used m.pool)
    (hpool : m.pool = pool) (hsettled : m.size ≠ 0 → ∀ m' ∈ us, m'.pool = pool → m'.size = 0) :
    Single pool used (m :: us) := by
  by_cases hsize : m.size = 0
  · have hsame : owing pool (m :: us) = owing pool us :=
      List.filter_cons_of_neg (by simp [hsize])
    constructor <;> rw [hsame]
    · exact h.one
    · exact h.mark
  · have hnone : owing pool us = [] := by
      refine List.eq_nil_iff_forall_not_mem.mpr fun m' hm' => ?_
      obtain ⟨hm', hpool', hsize'⟩ := mem_owing.mp hm'
      exact hsize' (hsettled hsize m' hm' hpool')
    have hone : owing pool (m :: us) = [m] := by
      unfold owing at hnone ⊢
      rw [List.filter_cons_of_pos (by simp [hpool, hsize]), hnone]
    constructor <;> rw [hone]
    · exact Nat.le_refl 1
    · intro m' hm'
      obtain rfl := List.mem_singleton.mp hm'
      rw [hstart, hpool]

theorem returned {m : Message} (h : Single pool used (m :: us)) :
    Single pool (Function.update used m.pool (used m.pool + m.size)) us := by
  by_cases howing : m.pool = pool ∧ m.size ≠ 0
  · refine of_none fun m' hm' hpool' => ?_
    by_contra hsize'
    have hone := h.one
    unfold owing at hone
    rw [List.filter_cons_of_pos (by simpa using howing), List.length_cons] at hone
    have hpos : 0 < (owing pool us).length :=
      List.length_pos_of_mem (mem_owing.mpr ⟨hm', hpool', hsize'⟩)
    unfold owing at hpos
    omega
  · have hsame : owing pool (m :: us) = owing pool us :=
      List.filter_cons_of_neg (by simpa using howing)
    refine ⟨hsame ▸ h.one, fun m' hm' => ?_⟩
    rw [h.mark m' (hsame ▸ hm')]
    rcases eq_or_ne pool m.pool with rfl | hpool
    · rw [not_and_not_right] at howing
      rw [Function.update_self, howing rfl, Nat.add_zero]
    · rw [Function.update_of_ne hpool]

end Single

def State.Single (s : State) : Prop := Dgram.Single s.pool s.used s.unsettled

theorem pool_eq {s s' : State} (h : s'.pools = s.pools) : s'.pool = s.pool :=
  congrArg (· - 1) h

theorem single_step {s s' : State} {a : Action} (hcovered : s.Covered) (h : s.Single)
    (hkeeps : KeepsSize s a) (hsettled : Settled s a) (hs : step s a = some s') : s'.Single := by
  unfold State.Single at h ⊢
  cases effect_step hs with
  | quiet p hp _ hpools hused _ _ hunsettled _ =>
    rw [pool_eq hpools, hused]
    rcases hp with rfl | rfl
    · exact h.perm hunsettled
    · exact (h.getPool hcovered).perm hunsettled
  | emitted m bytes hstores hpool hstart _ hpools hused _ _ hunsettled _ =>
    rw [pool_eq hpools, hused, hunsettled]
    exact (h.getPool hcovered).emit hstart hpool fun hsize m' hm' hpool' =>
      hsettled m hstores hsize m' hm' (hpool'.trans hpool.symm)
  | returned size m us _ hpools hused _ _ hbefore hafter hsize =>
    obtain rfl := hsize hkeeps
    rw [if_neg (Nat.lt_irrefl _)] at hafter
    rw [hbefore] at h
    rw [pool_eq hpools, hused]
    exact h.returned.perm hafter

/-- A message in the way is one that the next one overwrites. -/
theorem settled_of_spares {s s' : State} {a : Action} (hcovered : s.Covered) (h : s.Single)
    (hs : step s a = some s') (hspares : Spares s a) : Settled s a := by
  intro w hw hsize m hm hpool
  by_contra hmsize
  obtain ⟨hwpool, hwstart⟩ := stores_at hs hw
  have hmark : m.start = w.start := by
    rw [hwstart, hwpool]
    exact (Single.getPool hcovered h).mark m (mem_owing.mpr ⟨hm, hpool.trans hwpool, hmsize⟩)
  refine hspares w hw m.region (hcovered.mem m hm) w.pool w.start ⟨⟨hpool, ?_, ?_⟩, rfl, ?_, ?_⟩
  all_goals
    unfold Message.region
    dsimp only
    omega

/-! ### Runs -/

/-- The Buffer has what there was room for of the datagram. -/
theorem read_emitted {s s' : State} {bytes : Bytes} {m : Message}
    (hs : step s (.receive (.datagram bytes)) = some s')
    (hm : s.stores (.receive (.datagram bytes)) = some m) :
    m.region ∈ s'.emitted ∧
      s'.memory.read m.pool m.start m.size = bytes.take (poolSize - m.start) := by
  unfold step at hs
  dsimp only at hs
  split at hs
  · rename_i i rest hstack
    unfold State.stores at hm
    rw [hstack] at hm
    dsimp only at hm
    rw [received_datagram] at hm
    split_ifs at hm with hrunning
    obtain rfl := Option.some.inj hm
    obtain rfl := Option.some.inj hs
    unfold State.receive
    rw [if_pos hrunning, received_datagram]
    exact ⟨List.mem_cons_self, Memory.read_store _ _ _ _⟩
  · exact nomatch hs

/-- The step leaves a Buffer that it spares as it is. -/
theorem memory_step {s s' : State} {a : Action} (hs : step s a = some s') (hspares : Spares s a)
    {r : Region ℕ} (hr : r ∈ s.emitted) :
    r ∈ s'.emitted ∧ ∀ p (i : ℕ), r.Has p i → s'.memory p i = s.memory p i := by
  cases effect_step hs with
  | quiet _ _ _ _ _ hmemory hemitted =>
    rw [hemitted, hmemory]
    exact ⟨hr, fun _ _ _ => rfl⟩
  | returned _ _ _ _ _ _ hmemory hemitted =>
    rw [hemitted, hmemory]
    exact ⟨hr, fun _ _ _ => rfl⟩
  | emitted m bytes hstores _ _ hbytes _ _ hmemory hemitted =>
    rw [hemitted, hmemory]
    refine ⟨List.mem_cons_of_mem _ hr, fun p i hi => ?_⟩
    by_cases hp : p = m.pool
    · rw [hp]
      refine Memory.store_outside _ _ _ _ ?_
      by_contra hinside
      refine hspares m hstores r hr p i ⟨hi, hp.symm, ?_, ?_⟩
      all_goals
        unfold Message.region
        dsimp only
        omega
    · exact Memory.store_other _ _ _ _ hp i

/-- Through a run that spares the Buffers each of them keeps its bytes. -/
theorem memory_run {s s' : State} {as : List Action}
    (hspares : Along step (fun s a _ => Spares s a) s as) (hrun : run step s as = some s')
    {r : Region ℕ} (hr : r ∈ s.emitted) :
    ∀ p (i : ℕ), r.Has p i → s'.memory p i = s.memory p i := by
  induction as generalizing s with
  | nil =>
    obtain rfl := Option.some.inj hrun
    exact fun _ _ _ => rfl
  | cons a as ih =>
    obtain ⟨s₁, h₁, h₂⟩ := Option.bind_eq_some_iff.mp hrun
    obtain ⟨ha, has⟩ := hspares s₁ h₁
    obtain ⟨hr₁, hbytes⟩ := memory_step h₁ ha hr
    exact fun p i hi => (ih has h₂ hr₁ p i hi).trans (hbytes p i hi)

theorem covered_new (memory : Memory ℕ UInt8) : State.Covered { memory := memory } :=
  ⟨nofun, nofun, nofun, nofun⟩

theorem single_new (memory : Memory ℕ UInt8) : State.Single { memory := memory } :=
  ⟨Nat.zero_le 1, nofun⟩

/-- In a run whose receives find no message in the way no Buffer is overwritten. Where the listeners
leave `rinfo.size` alone, there is no other such run. -/
theorem receive_iff (memory : Memory ℕ UInt8) (as : List Action) :
    (Along step (fun s a _ => Settled s a) { memory := memory } as →
      Along step (fun s a _ => Spares s a) { memory := memory } as) ∧
    (Along step (fun s a _ => KeepsSize s a ∧ Spares s a) { memory := memory } as ↔
      Along step (fun s a _ => KeepsSize s a ∧ Settled s a) { memory := memory } as) := by
  constructor
  · intro hsettled
    exact hsettled.imp (covered_new memory) (fun _ _ _ => covered_step)
      fun s a s' h ha hs => spares_of_settled h hs ha
  · refine along_iff_while (J := fun s => s.Covered ∧ s.Single)
      ⟨covered_new memory, single_new memory⟩ (fun s a s' h hs => ?_)
      (fun s a s' h ha hs => ?_) as
    · exact and_congr_right fun _ =>
        ⟨settled_of_spares h.1 h.2 hs, spares_of_settled h.1 hs⟩
    · exact ⟨covered_step h.1 hs, single_step h.1 h.2 ha.1 ha.2 hs⟩

/-- A datagram of one byte, whose listener throws, and then another one. -/
def thrown : List Action :=
  [.create (some 3), .callback 0, .receive (.datagram [1]), .threw, .callback 0]

theorem not_receive : ¬ ∀ as,
    Along step (fun s a _ => Spares s a) { memory := fun _ _ => 0 } as := by
  intro h
  obtain ⟨s, hrun, hemitted, hstores, s', hs⟩ : ∃ s : State,
      run step { memory := fun _ _ => 0 } thrown = some s ∧ s.emitted = [⟨0, 0, 1⟩] ∧
        s.stores (.receive (.datagram [2])) = some ⟨0, 0, 1⟩ ∧
          ∃ s', step s (.receive (.datagram [2])) = some s' := ⟨_, rfl, rfl, rfl, _, rfl⟩
  have hspares := (h (thrown ++ [.receive (.datagram [2])])).last hrun hs
  refine hspares _ hstores ⟨0, 0, 1⟩ (hemitted ▸ List.mem_cons_self) 0 0 ⟨?_, ?_⟩
  · exact ⟨rfl, by decide, by decide⟩
  · exact ⟨rfl, by decide, by decide⟩

end NodeJS.Dgram
