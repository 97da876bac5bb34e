import Mathlib.Data.List.Count
import NodeJS.Lib.Reach

/-! `net.js`: how a socket gets its descriptor and gives it back. `connect`, the callback it hands
to the lookup, `doConnect`, `_onConnect` and `destroy`. -/
namespace NodeJS.Net.Connect
open Lib

/-- What `socket(type)` and then `connect(fd, …)` come to: the first throws, the second does, or a
connection is begun. -/
inductive Dial
  | noSocket
  | refused
  | begun
  deriving DecidableEq

/-- The address given to `connect`: a path, or a host to look up. -/
inductive Target
  | unix (dial : Dial)
  | tcp

inductive Answer
  | error
  | address (dial : Dial)

/-- What `socketError` says. -/
inductive Errno
  | zero
  | inProgress
  | other

/-- A `Socket`. Its descriptors are numbered in the order in which they are obtained, so that the
number of one that was closed is not used again. -/
structure Socket where
  fd : Option ℕ
  readable : Bool
  writable : Bool
  connecting : Bool
  destroyed : Bool
  /-- `_readWatcher` and `_writeWatcher` are not null. -/
  watchers : Bool
  /-- `_writeWatcher` is started. -/
  started : Bool
  /-- A write watcher is started that the socket has lost: it was replaced. -/
  stray : Bool
  /-- Lookups that have not called back. -/
  lookups : ℕ
  obtained : ℕ
  /-- The calls of `close`. -/
  closed : List ℕ

def Socket.new : Socket where
  fd := none
  readable := false
  writable := false
  connecting := false
  destroyed := false
  watchers := false
  started := false
  stray := false
  lookups := 0
  obtained := 0
  closed := []

def initSocket (s : Socket) : Socket :=
  { s with
    readable := false
    destroyed := false
    writable := false
    watchers := true
    started := false
    stray := s.stray || s.started }

def destroy (s : Socket) : Socket :=
  { s with
    readable := false
    writable := false
    watchers := false
    started := false
    closed := s.closed ++ s.fd.toList
    fd := none
    destroyed := true }

/-- `self.fd = socket(type)` -/
def makeSocket (s : Socket) : Socket :=
  { s with
    fd := some s.obtained
    obtained := s.obtained + 1 }

def doConnect (s : Socket) (begun : Bool) : Socket :=
  if s.destroyed then s
  else if begun then { s with started := true }
  else destroy s

/-- `self.fd = socket(type); doConnect(self, …)` -/
def dial (s : Socket) : Dial → Socket
  | .noSocket => s
  | .refused => doConnect (makeSocket s) false
  | .begun => doConnect (makeSocket s) true

def connect (s : Socket) (target : Target) : Socket :=
  let s := initSocket s
  -- 'Socket already opened'
  if s.fd.isSome then s else
  let s := { s with connecting := true, writable := true }
  match target with
  | .unix kernel => dial s kernel
  | .tcp => { s with lookups := s.lookups + 1 }

/-- The callback of the lookup. An error is emitted in a later tick. -/
def onLookup (s : Socket) (answer : Answer) : Socket :=
  let s := { s with lookups := s.lookups - 1 }
  match answer with
  | .error => s
  | .address kernel => dial s kernel

/-- `_onConnect`. `socketError` throws when there is no descriptor. -/
def onConnect (s : Socket) (errno : Errno) : Socket :=
  if s.fd.isNone then s else
  match errno with
  | .zero => { s with connecting := false, readable := true, writable := true }
  | .inProgress => s
  | .other => destroy s

/-- `onWritable` while the socket is connecting, with its assertion. -/
def onWritable (s : Socket) (errno : Errno) : Socket :=
  if s.writable then onConnect s errno else s

inductive Action
  | connect (target : Target)
  | lookup (answer : Answer)
  | writable (errno : Errno)
  | destroy

def step (s : Socket) : Action → Option Socket
  | .connect target => some (connect s target)
  | .lookup answer => if s.lookups ≠ 0 then some (onLookup s answer) else none
  | .writable errno =>
    if (s.started ∨ s.stray) ∧ s.connecting then some (onWritable s errno) else none
  | .destroy => some (destroy s)

/-- No descriptor is closed twice, and when the socket is destroyed and no lookup is to call back
each of them is closed. -/
def Socket.Closed (s : Socket) : Prop :=
  (∀ d, s.closed.count d ≤ 1) ∧
    (s.destroyed = true → s.lookups = 0 → ∀ d < s.obtained, s.closed.count d = 1)

/-- A lookup for which a descriptor is made calls back while the socket waits for one. -/
def Timely (s : Socket) : Action → Prop
  | .lookup (.address kernel) => kernel ≠ .noSocket → s.destroyed = false ∧ s.fd = none
  | _ => True

/-- Every descriptor is the socket's own or was closed once, and a socket that is destroyed has
none. -/
structure Owned (s : Socket) : Prop where
  fd_lt : ∀ d ∈ s.fd, d < s.obtained
  count_closed : ∀ d, s.closed.count d = if d < s.obtained ∧ s.fd ≠ some d then 1 else 0
  destroyed : s.destroyed = true → s.fd = none

variable {s s' : Socket}

theorem owned_new : Owned .new := ⟨nofun, fun _ => rfl, nofun⟩

/-- What only `destroy` and `makeSocket` change. -/
theorem Owned.of_eq (h : Owned s) (hfd : s'.fd = s.fd) (hobtained : s'.obtained = s.obtained)
    (hclosed : s'.closed = s.closed) (hdestroyed : s'.destroyed = true → s.destroyed = true) :
    Owned s' := by
  refine ⟨?_, ?_, fun hd => hfd.trans (h.destroyed (hdestroyed hd))⟩
  · rw [hfd, hobtained]
    exact h.fd_lt
  · rw [hfd, hobtained, hclosed]
    exact h.count_closed

theorem Owned.destroy (h : Owned s) : Owned (destroy s) := by
  refine ⟨nofun, fun d => ?_, fun _ => rfl⟩
  have hcount := h.count_closed d
  unfold Connect.destroy
  dsimp only
  cases hfd : s.fd with
  | none =>
    rw [hfd] at hcount
    simpa using hcount
  | some d' =>
    rw [hfd] at hcount
    have hlt := h.fd_lt d' hfd
    rw [Option.toList_some, List.count_append, hcount]
    by_cases heq : d' = d
    · subst heq
      simp [hlt]
    · simp [heq]

/-- A socket that has no descriptor gets one. -/
theorem Owned.makeSocket (h : Owned s) (hfd : s.fd = none) (hdestroyed : s.destroyed = false) :
    Owned (makeSocket s) := by
  refine ⟨fun d hd => ?_, fun d => ?_, fun hd => absurd (hdestroyed.symm.trans hd) nofun⟩
  · obtain rfl := Option.some.inj hd
    exact Nat.lt_succ_self _
  · have hcount := h.count_closed d
    rw [hfd] at hcount
    unfold Connect.makeSocket
    dsimp only
    rw [hcount]
    refine if_congr ?_ rfl rfl
    simp only [ne_eq, Option.some.injEq, reduceCtorEq, not_false_eq_true, and_true]
    omega

theorem Owned.dial (h : Owned s) (kernel : Dial)
    (htimely : kernel ≠ .noSocket → s.destroyed = false ∧ s.fd = none) :
    Owned (dial s kernel) := by
  cases kernel with
  | noSocket => exact h
  | refused =>
    obtain ⟨hdestroyed, hfd⟩ := htimely nofun
    have hmade := h.makeSocket hfd hdestroyed
    unfold Connect.dial doConnect
    dsimp only
    rw [if_neg (by simp [Connect.makeSocket, hdestroyed])]
    exact hmade.destroy
  | begun =>
    obtain ⟨hdestroyed, hfd⟩ := htimely nofun
    have hmade := h.makeSocket hfd hdestroyed
    unfold Connect.dial doConnect
    dsimp only
    rw [if_neg (by simp [Connect.makeSocket, hdestroyed])]
    exact hmade.of_eq rfl rfl rfl id

theorem Owned.connect (h : Owned s) (target : Target) : Owned (connect s target) := by
  have hinit : Owned (initSocket s) := h.of_eq rfl rfl rfl nofun
  unfold Connect.connect
  dsimp only
  split_ifs with hopened
  · exact hinit
  have hfd : s.fd = none := Option.not_isSome_iff_eq_none.mp hopened
  cases target with
  | unix kernel =>
    have hwaits : Owned { initSocket s with connecting := true, writable := true } :=
      hinit.of_eq rfl rfl rfl id
    exact hwaits.dial kernel fun _ => ⟨rfl, hfd⟩
  | tcp => exact hinit.of_eq rfl rfl rfl id

theorem Owned.onWritable (h : Owned s) (errno : Errno) : Owned (onWritable s errno) := by
  unfold Connect.onWritable onConnect
  split_ifs
  · exact h
  · cases errno with
    | zero => exact h.of_eq rfl rfl rfl id
    | inProgress => exact h
    | other => exact h.destroy
  · exact h

theorem owned_step {a : Action} (h : Owned s) (htimely : Timely s a) (hs : step s a = some s') :
    Owned s' := by
  cases a with
  | connect target =>
    obtain rfl := Option.some.inj hs
    exact h.connect target
  | lookup answer =>
    unfold step at hs
    dsimp only at hs
    split_ifs at hs
    obtain rfl := Option.some.inj hs
    have hcalled : Owned { s with lookups := s.lookups - 1 } := h.of_eq rfl rfl rfl id
    cases answer with
    | error => exact hcalled
    | address kernel => exact hcalled.dial kernel htimely
  | writable errno =>
    unfold step at hs
    dsimp only at hs
    split_ifs at hs
    obtain rfl := Option.some.inj hs
    exact h.onWritable errno
  | destroy =>
    obtain rfl := Option.some.inj hs
    exact h.destroy

theorem Owned.closed (h : Owned s) : s.Closed := by
  constructor
  · intro d
    rw [h.count_closed]
    split_ifs
    · exact Nat.le_refl 1
    · exact Nat.zero_le 1
  · intro hdestroyed _ d hd
    rw [h.count_closed, if_pos ⟨hd, by simp [h.destroyed hdestroyed]⟩]

/-- In every run in which each lookup that gets a descriptor is timely, each descriptor is closed
once by the time the socket is destroyed and no lookup is to call back. -/
theorem closed_once (h : Reach step Timely .new s) : s.Closed :=
  (h.invariant owned_new fun _ _ _ hs hok hstep => owned_step hs hok hstep).closed

theorem closed_once_destroy : ∃ s, run step .new [.connect .tcp, .lookup (.address .begun),
    .writable .zero, .destroy] = some s ∧ s.Closed := by
  obtain ⟨s, hs⟩ : ∃ s, run step .new [.connect .tcp, .lookup (.address .begun), .writable .zero,
    .destroy] = some s := ⟨_, rfl⟩
  refine ⟨s, hs, closed_once (reach_of_along hs ?_)⟩
  exact along_cons rfl trivial <| along_cons rfl (fun _ => ⟨rfl, rfl⟩) <|
    along_cons rfl trivial <| along_cons rfl trivial trivial

/-- The socket is destroyed before the lookup calls back: `doConnect` leaves the new descriptor as
it is. -/
theorem closed_late : ¬ ∀ s, Reach step (fun _ _ => True) .new s → s.Closed := by
  intro h
  have hrun : run step .new [.connect .tcp, .destroy, .lookup (.address .begun)] = some _ := rfl
  have hclosed := (h _ (reach_of_run hrun fun _ _ => trivial)).2 rfl rfl 0 (by decide)
  exact absurd hclosed (by decide)

/-! ### A lookup that is late -/

/-- A descriptor that a late lookup gets is not owned, or it takes the place of one that is open. -/
theorem timely_of_owned (h : Owned s) {kernel : Dial} (hkernel : kernel ≠ .noSocket)
    (h' : Owned (dial s kernel)) : s.destroyed = false ∧ s.fd = none := by
  have hdestroyed : s.destroyed = false := by
    by_contra hne
    have hd : s.destroyed = true := by simpa using hne
    have hsame : dial s kernel = makeSocket s := by
      cases kernel with
      | noSocket => exact absurd rfl hkernel
      | refused => exact if_pos hd
      | begun => exact if_pos hd
    rw [hsame] at h'
    exact absurd (h'.destroyed hd) nofun
  refine ⟨hdestroyed, Option.eq_none_iff_forall_ne_some.mpr fun d hfd => ?_⟩
  have hlt := h.fd_lt d hfd
  have hopen : s.closed.count d = 0 := by
    rw [h.count_closed, if_neg (by simp [hfd])]
  have hclosed := h'.count_closed d
  have hne : s.obtained ≠ d := Nat.ne_of_gt hlt
  cases kernel with
  | noSocket => exact hkernel rfl
  | refused =>
    simp [dial, doConnect, makeSocket, destroy, hdestroyed, hopen, hne] at hclosed
    omega
  | begun =>
    simp [dial, doConnect, makeSocket, hdestroyed, hopen, hne] at hclosed
    omega

/-- Descriptors are owned in every state of a run if and only if every lookup was timely. -/
theorem owned_along_iff (as : List Action) :
    Along step (fun _ _ s => Owned s) .new as ↔ Along step (fun s a _ => Timely s a) .new as := by
  refine along_iff (I := fun _ => True) trivial owned_new (fun _ _ _ _ _ => trivial)
    (fun s a s' _ howned hs => ⟨fun h' => ?_, fun htimely => owned_step howned htimely hs⟩) as
  match a with
  | .lookup (.address kernel) =>
    intro hkernel
    unfold step at hs
    dsimp only at hs
    split_ifs at hs
    obtain rfl := Option.some.inj hs
    have hcalled : Owned { s with lookups := s.lookups - 1 } := howned.of_eq rfl rfl rfl id
    have hwaits := timely_of_owned hcalled hkernel h'
    exact hwaits
  | .lookup .error => trivial
  | .connect _ => trivial
  | .writable _ => trivial
  | .destroy => trivial

end NodeJS.Net.Connect
