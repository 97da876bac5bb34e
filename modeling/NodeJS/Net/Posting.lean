import NodeJS.Lib.Reach
import NodeJS.Net.Coalesce
import NodeJS.Net.Handover

/-! A socket that is written to and flushed, with a record of where in the stream the data of each
write stands. -/
namespace NodeJS.Net.Posting
open Lib

/-- A write that was taken: where its data begins and ends, and what came with it. -/
structure Post where
  start : ℕ
  stop : ℕ
  fd : Option ℕ
  cb : Option ℕ
  deriving DecidableEq, Repr

structure Writer where
  net : State
  posts : List Post
  /-- The number of bytes that `pool.write` would not take from the queue. -/
  lost : ℕ
  /-- A call has thrown because of a callback. -/
  threw : Bool

def Writer.sent (s : Writer) : ℕ := s.net.sock.wire.length + s.lost

/-- The descriptors written, each with the place where its data begins. -/
def Writer.descriptors (s : Writer) : List (ℕ × ℕ) :=
  s.posts.flatMap fun p => (p.fd.map fun d => (p.start, d)).toList

/-- The callbacks given, each with the place where its data ends. -/
def Writer.callbacks (s : Writer) : List (ℕ × ℕ) :=
  s.posts.flatMap fun p => (p.cb.map fun id => (p.stop, id)).toList

def Writer.new (pool : Pool) (unix connecting : Bool) : Writer :=
  ⟨⟨pool, .new unix connecting⟩, [], 0, false⟩

/-- What can happen to the socket. A callback may do any of it before `flush` goes on. -/
inductive Action
  | write (chunk : Chunk) (encoding : EncArg) (fd : Option ℕ) (cb : Option ℕ)
  /-- A round of `flush`. -/
  | flush
  | connect
  | poolUse (stored : Bytes) (kept : ℕ)

def threw : Except Exc Bool → Bool
  | .error .callback => true
  | _ => false

section
variable (kernel : Kernel)

/-- `Socket.prototype.write`. A write that throws is not taken. -/
def post (s : Writer) (chunk : Chunk) (encoding : EncArg) (fd : Option ℕ) (cb : Option ℕ) :
    Writer :=
  let (r, net) := write kernel s.net (Chunk.data chunk) encoding fd (cb.map .user)
  let queue := coalesce s.net.sock.queue (Chunk.data chunk) encoding (cb.map .user)
  let post : Post :=
    ⟨s.sent + queuedSize s.net.sock.queue, s.sent + queuedSize queue, fd, cb⟩
  { s with
    net := net
    posts := match r with
      | .ok _ => s.posts ++ [post]
      | .error _ => s.posts
    threw := s.threw || threw r }

/-- A round of `flush`. -/
def flush (s : Writer) : Writer :=
  let (r, net) := flushRounds kernel 1 s.net
  { s with
    net := net
    lost := match r, s.net.sock.queue with
      | .error exc, e :: _ => if exc.drops then s.lost + e.size else s.lost
      | _, _ => s.lost
    threw := s.threw || threw r }

def step (s : Writer) : Action → Option Writer
  | .write chunk encoding fd cb => some (post kernel s chunk encoding fd cb)
  | .flush => some (flush kernel s)
  | .connect =>
    if s.net.sock.connecting ∧ s.net.sock.destroyed = false then
      some { s with net := onConnect s.net }
    else none
  | .poolUse stored kept =>
    some { s with net := { s.net with pool := s.net.pool.use stored kept } }

end

/-! ### The ways a write and a round of `flush` can go -/

section
variable (kernel : Kernel)

/-- A write on a socket that lives is queued, refused by the pool, or handed over, which may be the
end of the socket. -/
inductive Posted (s : Writer) (chunk : Chunk) (encoding : EncArg) (fd cb : Option ℕ) :
    Writer → Prop
  | queued (hqueue : s.net.sock.connecting = true ∨ s.net.sock.queue ≠ []) :
    Posted s chunk encoding fd cb { s with
      net := { s.net with
        sock := enqueue s.net.sock (Chunk.data chunk) encoding fd (cb.map .user) }
      posts := s.posts ++ [⟨s.sent + queuedSize s.net.sock.queue, s.sent + queuedSize
        (coalesce s.net.sock.queue (Chunk.data chunk) encoding (cb.map .user)), fd, cb⟩] }
  | refused {net : State} (hsock : net.sock = s.net.sock) :
    Posted s chunk encoding fd cb { s with net := net }
  | handed {net : State} {r : Except Exc Bool} {len : ℕ} {whole : Bool}
    (hqueue : ¬ (s.net.sock.connecting = true ∨ s.net.sock.queue ≠ []))
    (hoffer : offer s.net.pool encoding (Chunk.data chunk) = some (len, whole))
    (houtcome : Outcome (kernel.write s.net.sock.calls len) s.net.sock
      ((Chunk.data chunk).size encoding) len whole fd (cb.map .user) r net.sock) :
    Posted s chunk encoding fd cb { s with
      net := net
      posts := s.posts ++ [⟨s.sent, s.sent + (Chunk.data chunk).size encoding, fd, cb⟩] }
  | dead {s' : Writer} (hdead : Dead s'.net) (hthrew : s'.threw = s.threw) :
    Posted s chunk encoding fd cb s'

/-- In a round of `flush` the first entry is lost because the pool refuses it, or handed over. -/
inductive Round (s : Writer) : Writer → Prop
  | idle : Round s s
  | refused {e : Entry} {queue : List Entry} {net : State} (hqueue : s.net.sock.queue = e :: queue)
    (hoffer : offer s.net.pool e.encoding e.data = none)
    (hsock : net.sock = s.net.sock.shift e queue) :
    Round s { s with net := net, lost := s.lost + e.size }
  | handed {e : Entry} {queue : List Entry} {net : State} {r : Except Exc Bool} {len : ℕ}
    {whole : Bool} (hqueue : s.net.sock.queue = e :: queue)
    (hoffer : offer s.net.pool e.encoding e.data = some (len, whole))
    (houtcome : Outcome (kernel.write s.net.sock.calls len) (s.net.sock.shift e queue) e.size len
      whole s.net.sock.queueFD.head?.join e.cb r net.sock) :
    Round s { s with net := net, threw := s.threw || threw r }
  | dead {s' : Writer} (hdead : Dead s'.net) (hthrew : s'.threw = s.threw) : Round s s'

end

@[simp] theorem threw_ok (b : Bool) : threw (.ok b) = false := rfl

theorem not_threw {exc : Exc} (h : exc.drops = true) : threw (.error exc) = false := by
  cases exc <;> first | rfl | exact absurd h nofun

section
variable {kernel : Kernel} {s : Writer}

theorem posted_of_alive (hwritable : s.net.sock.writable = true)
    (hend : s.net.sock.endOfFile = false) (chunk : Chunk) (encoding : EncArg)
    (fd cb : Option ℕ) :
    Posted kernel s chunk encoding fd cb (post kernel s chunk encoding fd cb) := by
  have hend' : ¬ s.net.sock.endOfFile = true := by
    rw [hend]
    exact Bool.false_ne_true
  unfold post write
  by_cases hqueue : s.net.sock.connecting = true ∨ s.net.sock.queue ≠ []
  · rw [if_pos (hqueue.imp id .inl), if_neg hend']
    dsimp only
    rw [threw_ok, Bool.or_false]
    exact .queued hqueue
  · have hnil : s.net.sock.queue = [] := by
      by_contra hne
      exact hqueue (.inr hne)
    rw [if_neg fun h => hqueue (h.imp id fun h => h.resolve_right hend')]
    cases hoffer : offer s.net.pool encoding (Chunk.data chunk) with
    | none =>
      obtain ⟨exc, hexc, hdrops, hsock⟩ := writeOut_none kernel hwritable hoffer fd (cb.map .user)
      generalize writeOut kernel s.net (Chunk.data chunk) encoding fd (cb.map .user) = x
        at hexc hsock ⊢
      obtain ⟨r, net⟩ := x
      dsimp only at hexc hsock ⊢
      subst hexc
      rw [not_threw hdrops, Bool.or_false]
      exact .refused hsock
    | some offered =>
      obtain ⟨len, whole⟩ := offered
      have houtcome := writeOut_outcome kernel hwritable hoffer fd (cb.map .user)
      generalize writeOut kernel s.net (Chunk.data chunk) encoding fd (cb.map .user) = x
        at houtcome ⊢
      obtain ⟨r, net⟩ := x
      dsimp only at houtcome ⊢
      rcases houtcome with ⟨rfl, hdead⟩ | houtcome
      · exact .dead hdead (Bool.or_false _)
      · obtain ⟨b, rfl⟩ := houtcome.ok (by cases cb <;> nofun)
        have hstop : queuedSize (coalesce s.net.sock.queue (Chunk.data chunk) encoding
            (cb.map .user)) = (Chunk.data chunk).size encoding := by
          rw [hnil]
          exact Nat.add_zero _
        dsimp only
        rw [threw_ok, Bool.or_false, hstop, hnil, queuedSize_nil, Nat.add_zero]
        exact .handed hqueue hoffer houtcome

theorem round_of_alive (hwritable : s.net.sock.writable = true)
    (hend : s.net.sock.endOfFile = false) : Round kernel s (flush kernel s) := by
  unfold flush
  cases hqueue : s.net.sock.queue with
  | nil =>
    have hsame : flushRounds kernel 1 s.net = (.ok true, s.net) := by
      unfold flushRounds
      rw [hqueue]
      dsimp only
      rw [if_neg (by rw [hend]; exact Bool.false_ne_true)]
    rw [hsame]
    dsimp only
    rw [threw_ok, Bool.or_false]
    exact .idle
  | cons e queue =>
    rw [flushRounds_one hqueue]
    cases hoffer : offer s.net.pool e.encoding e.data with
    | none =>
      obtain ⟨exc, hexc, hdrops, hsock⟩ := writeOut_none (n := { s.net with
        sock := s.net.sock.shift e queue }) kernel hwritable hoffer
          s.net.sock.queueFD.head?.join e.cb
      generalize writeOut kernel _ e.data e.encoding s.net.sock.queueFD.head?.join e.cb = x
        at hexc hsock ⊢
      obtain ⟨r, net⟩ := x
      dsimp only at hexc hsock ⊢
      subst hexc
      dsimp only
      rw [if_pos hdrops, not_threw hdrops, Bool.or_false]
      exact .refused hqueue hoffer hsock
    | some offered =>
      obtain ⟨len, whole⟩ := offered
      have houtcome := writeOut_outcome (n := { s.net with
        sock := s.net.sock.shift e queue }) kernel hwritable hoffer
          s.net.sock.queueFD.head?.join e.cb
      generalize writeOut kernel _ e.data e.encoding s.net.sock.queueFD.head?.join e.cb = x
        at houtcome ⊢
      obtain ⟨r, net⟩ := x
      dsimp only at houtcome ⊢
      rcases houtcome with ⟨rfl, hdead⟩ | houtcome
      · exact .dead hdead (Bool.or_false _)
      · cases r with
        | ok b => exact .handed hqueue hoffer houtcome
        | error exc =>
          dsimp only
          rw [if_neg (by rw [houtcome.not_drops]; exact Bool.false_ne_true)]
          exact .handed hqueue hoffer houtcome

theorem connect_step {s' : Writer} (h : step kernel s .connect = some s') :
    s' = { s with net := onConnect s.net } := by
  unfold step at h
  dsimp only at h
  split_ifs at h
  exact (Option.some.inj h).symm

theorem dead_flushRounds {n : State} (h : Dead n) (kernel : Kernel) :
    threw (flushRounds kernel 1 n).1 = false := by
  cases hqueue : n.sock.queue with
  | nil =>
    unfold flushRounds
    rw [hqueue]
    dsimp only
    split_ifs
    · unfold shutdown
      dsimp only
      rw [if_pos h.2]
      rfl
    · rfl
  | cons e queue =>
    have hdead : Dead { n with sock := n.sock.shift e queue } := h
    rw [flushRounds_one hqueue, hdead.writeOut]
    rfl

/-- A socket that is destroyed stays so. -/
theorem dead_step (hdead : Dead s.net) {a : Action} {s' : Writer}
    (h : step kernel s a = some s') : Dead s'.net ∧ (s.threw = false → s'.threw = false) := by
  cases a with
  | write chunk encoding fd cb =>
    obtain rfl := Option.some.inj h
    unfold post write
    split_ifs
    · exact ⟨hdead, fun hthrew => by rw [hthrew]; rfl⟩
    · exact ⟨hdead, fun hthrew => by rw [hthrew]; rfl⟩
    · rw [hdead.writeOut]
      exact ⟨hdead, fun hthrew => by rw [hthrew]; rfl⟩
  | flush =>
    obtain rfl := Option.some.inj h
    have hrounds := hdead.flushRounds kernel 1
    have hcalm := dead_flushRounds hdead kernel
    unfold flush
    generalize flushRounds kernel 1 s.net = x at hrounds hcalm ⊢
    obtain ⟨r, net⟩ := x
    dsimp only at hrounds hcalm ⊢
    exact ⟨hrounds, fun hthrew => by rw [hthrew, hcalm]; rfl⟩
  | connect =>
    unfold step at h
    dsimp only at h
    split_ifs at h with hconnect
    exact absurd (hdead.1.symm.trans hconnect.2) nofun
  | poolUse stored kept =>
    obtain rfl := Option.some.inj h
    exact ⟨hdead, id⟩

end

end NodeJS.Net.Posting
