import Mathlib.Data.Finmap
import NodeJS.Lib.Reach

/-! The sockets of the c-ares channel: the watchers made for them, and the timer that has all those
processed whose watchers are active. -/
namespace NodeJS.Dns
open Lib

def SOCKET_BAD : ℤ := -1

/-- An argument of `processFD`. -/
def interest (flag : Bool) (socket : ℕ) : ℤ := if flag then socket else SOCKET_BAD

/-- What c-ares reports of a socket. It gives each flag as 0 or 1. On win32 `openOSHandle` gives
a handle for the socket. -/
structure Report where
  socket : ℕ
  read : Bool
  write : Bool
  handle : Option ℕ := none
  deriving DecidableEq

def Report.fd (r : Report) : ℕ := r.handle.getD r.socket

def Report.active (r : Report) : Bool := r.read || r.write

/-- What `processFD` is to be called with for the socket. -/
def Report.interests (r : Report) : ℤ × ℤ := (interest r.read r.socket, interest r.write r.socket)

/-- An `IOWatcher`, whose callback was made for `socket`. -/
structure IOWatcher where
  socket : ℕ
  fd : ℕ
  read : Bool
  write : Bool
  active : Bool

namespace IOWatcher

def new (socket : ℕ) : IOWatcher := ⟨socket, 0, false, false, false⟩

def stop (w : IOWatcher) : IOWatcher := { w with active := false }

def set (w : IOWatcher) (fd : ℕ) (read write : Bool) : IOWatcher :=
  { w with fd := fd, read := read, write := write }

def start (w : IOWatcher) : IOWatcher := { w with active := true }

end IOWatcher

/-- What `watchers` has for a socket. -/
structure Entry where
  read : Bool
  write : Bool
  watcher : ℕ

/-- The callback that the event loop has called, if it has not returned yet. -/
inductive Running
  | idle
  /-- `timer.callback`, with `i` the index in its loop -/
  | timeout (sockets : List ℕ) (i : ℕ)
  /-- the callback of a watcher, after the call of `processFD` -/
  | ready

/-- The module. Watchers have numbers. The calls of `processFD` are kept, and the reports, of which
the last one comes first. -/
structure State where
  watchers : Finmap fun _ : ℕ => Entry := ∅
  activeWatchers : Finmap fun _ : ℕ => ℕ := ∅
  io : ℕ → IOWatcher := IOWatcher.new
  created : ℕ := 0
  timer : Bool := false
  running : Running := .idle
  calls : List (ℤ × ℤ) := []
  reports : List Report := []

namespace State

def updateTimer (s : State) : State :=
  { s with timer := decide (s.activeWatchers.keys.card ≠ 0) }

def watcherFor (s : State) (r : Report) : State × ℕ :=
  match s.watchers.lookup r.socket with
  | some e => (s, e.watcher)
  | none =>
    ({ s with
        watchers := s.watchers.insert r.socket ⟨r.read, r.write, s.created⟩
        io := Function.update s.io s.created (.new r.socket)
        created := s.created + 1 }, s.created)

def sockStateCb (s : State) (r : Report) : State :=
  let (s, watcher) := s.watcherFor r
  let stopped := (s.io watcher).stop
  if r.active then
    updateTimer { s with
      io := Function.update s.io watcher (stopped.set r.fd r.read r.write).start
      activeWatchers := s.activeWatchers.insert r.socket watcher }
  else
    { s with
      io := Function.update s.io watcher stopped
      activeWatchers := s.activeWatchers.erase r.socket }

def processFD (s : State) (read write : Bool) (socket : ℕ) : State :=
  { s with calls := s.calls ++ [(interest read socket, interest write socket)] }

/-- The callback of a watcher up to the call of `processFD`. -/
def ready (s : State) (w : ℕ) (read write : Bool) : State :=
  { s.processFD read write (s.io w).socket with running := .ready }

/-- The running callback as far as the next call of `processFD`, or to its end. -/
def next (s : State) : Option State :=
  match s.running with
  | .idle => none
  | .ready => some { s.updateTimer with running := .idle }
  | .timeout sockets i =>
    match sockets[i]? with
    | none => some { s.updateTimer with running := .idle }
    | some socket =>
      match s.watchers.lookup socket with
      -- a TypeError
      | none => some { s with running := .idle }
      | some e =>
        some { s.processFD e.read e.write socket with running := .timeout sockets (i + 1) }

def last (s : State) (socket : ℕ) : Option Report := s.reports.find? (·.socket = socket)

def first (s : State) (socket : ℕ) : Option Report :=
  s.reports.reverse.find? (·.socket = socket)

end State

inductive Action
  /-- c-ares reports when a query is made and while `processFD` runs. -/
  | report (r : Report)
  /-- The time is over. `sockets` is what `Object.keys` gives, in any order. -/
  | timeout (sockets : List ℕ)
  | ready (w : ℕ) (read write : Bool)
  | next
  deriving DecidableEq

def step (s : State) : Action → Option State
  | .report r => some { s.sockStateCb r with reports := r :: s.reports }
  | .timeout sockets =>
    match s.running with
    | .idle =>
      if s.timer ∧ sockets.Nodup ∧ sockets.toFinset = s.activeWatchers.keys then
        some { s with timer := false, running := .timeout sockets 0 }
      else none
    | _ => none
  | .ready w read write =>
    match s.running with
    | .idle => if w < s.created ∧ (s.io w).active then some (s.ready w read write) else none
    | _ => none
  | .next => s.next

/-! ### Reports -/

theorem last_cons {s s' : State} {r : Report} (h : s'.reports = r :: s.reports) (k : ℕ) :
    s'.last k = if k = r.socket then some r else s.last k := by
  unfold State.last
  rw [h, List.find?_cons]
  by_cases hk : k = r.socket
  · simp [hk]
  · simp [hk, Ne.symm hk]

theorem first_cons {s s' : State} {r : Report} (h : s'.reports = r :: s.reports) (k : ℕ) :
    s'.first k = if k = r.socket then some ((s.first k).getD r) else s.first k := by
  unfold State.first
  rw [h, List.reverse_cons, List.find?_append]
  by_cases hk : k = r.socket
  · subst hk
    cases List.find? (fun r' : Report => decide (r'.socket = r.socket)) s.reports.reverse <;> simp
  · simp [hk, Ne.symm hk]

theorem socket_of_last {s : State} {k : ℕ} {r : Report} (h : s.last k = some r) :
    r.socket = k := by
  simpa using List.find?_some h

/-- `activeWatchers` has the sockets whose last report is not (0, 0), and their watchers, and no
others, are started with the flags of that report. -/
structure InStep (s : State) : Prop where
  active : ∀ k, k ∈ s.activeWatchers ↔ ∃ r, s.last k = some r ∧ r.active = true
  started : ∀ k w r, s.activeWatchers.lookup k = some w → s.last k = some r →
    s.io w = ⟨k, r.fd, r.read, r.write, true⟩
  stopped : ∀ k e, s.watchers.lookup k = some e → k ∉ s.activeWatchers →
    (s.io e.watcher).active = false

/-- What holds of the tables besides. An entry keeps the flags of the socket's first report. -/
structure Tabled (s : State) : Prop where
  entry : ∀ k e, s.watchers.lookup k = some e →
    ∃ r, s.first k = some r ∧ e.read = r.read ∧ e.write = r.write
  reported : ∀ k, k ∈ s.watchers ↔ (s.last k).isSome
  old : ∀ k e, s.watchers.lookup k = some e → e.watcher < s.created
  own : ∀ k e, s.watchers.lookup k = some e → (s.io e.watcher).socket = k
  shared : ∀ k w, s.activeWatchers.lookup k = some w →
    ∃ e, s.watchers.lookup k = some e ∧ e.watcher = w
  looped : ∀ sockets i, s.running = .timeout sockets i → ∀ k ∈ sockets, k ∈ s.watchers

/-- Two sockets do not share a watcher. -/
theorem Tabled.ne_watcher {s : State} (h : Tabled s) {r : Report} {e : Entry}
    (hmade : s.watchers.lookup r.socket = some e ∨
      s.watchers.lookup r.socket = none ∧ e = ⟨r.read, r.write, s.created⟩)
    {k : ℕ} (hk : k ≠ r.socket) {e' : Entry} (he' : s.watchers.lookup k = some e') :
    e'.watcher ≠ e.watcher := by
  rcases hmade with hold | ⟨-, rfl⟩
  · intro heq
    have hown := h.own k e' he'
    rw [heq, h.own r.socket e hold] at hown
    exact hk hown.symm
  · exact (h.old k e' he').ne

/-- There is a watcher for the socket, `e` being its entry. -/
structure Found (s : State) (r : Report) (e : Entry) (s' : State) : Prop where
  made : s.watchers.lookup r.socket = some e ∨
    s.watchers.lookup r.socket = none ∧ e = ⟨r.read, r.write, s.created⟩
  watchers : ∀ k, s'.watchers.lookup k = if k = r.socket then some e else s.watchers.lookup k
  owner : (s'.io e.watcher).socket = r.socket
  others : ∀ w, w ≠ e.watcher → s'.io w = s.io w
  created : s.created ≤ s'.created ∧ e.watcher < s'.created
  running : s'.running = s.running
  calls : s'.calls = s.calls

/-- What `SOCK_STATE_CB` does. -/
structure Reported (s : State) (r : Report) (e : Entry) (s' : State) : Prop
    extends Found s r e s' where
  activeWatchers : ∀ k, s'.activeWatchers.lookup k =
    if k = r.socket then if r.active then some e.watcher else none else s.activeWatchers.lookup k
  started : r.active = true → s'.io e.watcher = ⟨r.socket, r.fd, r.read, r.write, true⟩
  stopped : r.active = false → (s'.io e.watcher).active = false

theorem watcherFor_found {s : State} (h : Tabled s) (r : Report) :
    ∃ e s₁, s.watcherFor r = (s₁, e.watcher) ∧ Found s r e s₁ ∧
      s₁.activeWatchers = s.activeWatchers := by
  unfold State.watcherFor
  cases hfound : s.watchers.lookup r.socket with
  | some e =>
    refine ⟨e, s, rfl, ⟨.inl hfound, fun k => ?_, h.own _ _ hfound, fun _ _ => rfl,
      ⟨Nat.le_refl _, h.old _ _ hfound⟩, rfl, rfl⟩, rfl⟩
    split_ifs with hk
    · rw [hk, hfound]
    · rfl
  | none =>
    refine ⟨⟨r.read, r.write, s.created⟩, _, rfl, ⟨.inr ⟨hfound, rfl⟩, fun k => ?_, ?_,
      fun w hw => Function.update_of_ne hw _ _, ⟨Nat.le_succ _, Nat.lt_succ_self _⟩, rfl, rfl⟩, rfl⟩
    · split_ifs with hk
      · rw [hk, Finmap.lookup_insert]
      · exact Finmap.lookup_insert_of_ne _ hk
    · dsimp only
      rw [Function.update_self]
      rfl

/-- The watcher may be changed, as long as it stays the one of the socket. -/
theorem Found.update {s s₁ s' : State} {r : Report} {e : Entry} (h : Found s r e s₁) {w : IOWatcher}
    (hw : w.socket = r.socket) (hio : s'.io = Function.update s₁.io e.watcher w)
    (hsame : s'.watchers = s₁.watchers ∧ s'.created = s₁.created ∧ s'.running = s₁.running ∧
      s'.calls = s₁.calls) : Found s r e s' := by
  obtain ⟨hwatchers, hcreated, hrunning, hcalls⟩ := hsame
  refine ⟨h.made, hwatchers ▸ h.watchers, ?_, fun v hv => ?_, hcreated ▸ h.created,
    hrunning.trans h.running, hcalls.trans h.calls⟩
  · rw [hio, Function.update_self, hw]
  · rw [hio, Function.update_of_ne hv, h.others v hv]

theorem sockStateCb_reported {s : State} (h : Tabled s) (r : Report) :
    ∃ e, Reported s r e (s.sockStateCb r) := by
  obtain ⟨e, s₁, hfor, hfound, hactive⟩ := watcherFor_found h r
  refine ⟨e, ?_⟩
  unfold State.sockStateCb
  rw [hfor]
  dsimp only
  cases hr : r.active with
  | true =>
    rw [if_pos rfl]
    refine ⟨hfound.update (w := ((s₁.io e.watcher).stop.set r.fd r.read r.write).start) hfound.owner
      rfl ⟨rfl, rfl, rfl, rfl⟩, fun k => ?_, fun _ => ?_, fun hstop => ?_⟩
    · dsimp only [State.updateTimer]
      rw [hactive]
      rcases eq_or_ne k r.socket with rfl | hk
      · rw [if_pos rfl, if_pos hr, Finmap.lookup_insert]
      · rw [if_neg hk, Finmap.lookup_insert_of_ne _ hk]
    · dsimp only [State.updateTimer]
      rw [Function.update_self, ← hfound.owner]
      rfl
    · exact absurd (hr.symm.trans hstop) (by decide)
  | false =>
    rw [if_neg (by decide)]
    refine ⟨hfound.update (w := (s₁.io e.watcher).stop) hfound.owner rfl ⟨rfl, rfl, rfl, rfl⟩,
      fun k => ?_, fun hstart => ?_, fun _ => ?_⟩
    · dsimp only
      rw [hactive]
      rcases eq_or_ne k r.socket with rfl | hk
      · rw [if_pos rfl, hr, if_neg (by decide), Finmap.lookup_erase]
      · rw [if_neg hk, Finmap.lookup_erase_ne hk]
    · exact absurd (hr.symm.trans hstart) (by decide)
    · dsimp only
      rw [Function.update_self]
      rfl

/-! ### What every step keeps -/

section
variable {s s' : State} {r : Report} {e : Entry}

theorem first_eq_none (h : s.last r.socket = none) : s.first r.socket = none := by
  unfold State.last at h
  unfold State.first
  rw [List.find?_eq_none] at h ⊢
  exact fun r' hr' => h r' (List.mem_reverse.mp hr')

theorem tabled_report (h : Tabled s) (hs : Reported s r e s')
    (hreports : s'.reports = r :: s.reports) : Tabled s' where
  entry := by
    intro k e' he'
    rw [hs.watchers] at he'
    rw [first_cons hreports]
    split_ifs at he' ⊢ with hk
    · obtain rfl := Option.some.inj he'
      rw [hk]
      refine ⟨_, rfl, ?_⟩
      rcases hs.made with hold | ⟨hnone, rfl⟩
      · obtain ⟨r', hfirst, hflags⟩ := h.entry _ _ hold
        rw [hfirst]
        exact hflags
      · have hlast : s.last r.socket = none := by
          have hnot := Finmap.lookup_eq_none.mp hnone
          rw [h.reported, Option.not_isSome_iff_eq_none] at hnot
          exact hnot
        rw [first_eq_none hlast]
        exact ⟨rfl, rfl⟩
    · exact h.entry k e' he'
  reported := by
    intro k
    rw [← Finmap.lookup_isSome, hs.watchers, last_cons hreports]
    split_ifs
    · exact iff_of_true rfl rfl
    · rw [Finmap.lookup_isSome]
      exact h.reported k
  old := by
    intro k e' he'
    rw [hs.watchers] at he'
    split_ifs at he' with hk
    · obtain rfl := Option.some.inj he'
      exact hs.created.2
    · exact (h.old k e' he').trans_le hs.created.1
  own := by
    intro k e' he'
    rw [hs.watchers] at he'
    split_ifs at he' with hk
    · obtain rfl := Option.some.inj he'
      rw [hk]
      exact hs.owner
    · rw [hs.others _ (h.ne_watcher hs.made hk he')]
      exact h.own k e' he'
  shared := by
    intro k w hw
    rw [hs.activeWatchers] at hw
    rw [hs.watchers]
    split_ifs at hw ⊢ with hk hr
    · exact ⟨e, rfl, Option.some.inj hw⟩
    · exact h.shared k w hw
  looped := by
    intro sockets i hrunning k hk
    rw [← Finmap.lookup_isSome, hs.watchers]
    split_ifs
    · rfl
    · rw [Finmap.lookup_isSome]
      exact h.looped sockets i (hs.running.symm.trans hrunning) k hk

theorem inStep_report (h : Tabled s) (hin : InStep s) (hs : Reported s r e s')
    (hreports : s'.reports = r :: s.reports) : InStep s' where
  active := by
    intro k
    rw [← Finmap.lookup_isSome, hs.activeWatchers, last_cons hreports]
    split_ifs with hk hr
    · exact iff_of_true rfl ⟨r, rfl, hr⟩
    · refine iff_of_false (by decide) fun ⟨r', hr', hactive⟩ => ?_
      obtain rfl := Option.some.inj hr'
      exact hr hactive
    · rw [Finmap.lookup_isSome]
      exact hin.active k
  started := by
    intro k w r' hw hr'
    rw [hs.activeWatchers] at hw
    rw [last_cons hreports] at hr'
    split_ifs at hw hr' with hk hr
    · obtain rfl := Option.some.inj hw
      obtain rfl := Option.some.inj hr'
      rw [hk]
      exact hs.started hr
    · obtain ⟨e', he', rfl⟩ := h.shared k w hw
      rw [hs.others _ (h.ne_watcher hs.made hk he')]
      exact hin.started k _ r' hw hr'
  stopped := by
    intro k e' he' hk
    rw [hs.watchers] at he'
    rw [← Finmap.lookup_isSome, hs.activeWatchers] at hk
    split_ifs at he' hk with hsocket hr
    · exact absurd rfl hk
    · obtain rfl := Option.some.inj he'
      exact hs.stopped (Bool.eq_false_iff.mpr hr)
    · rw [hs.others _ (h.ne_watcher hs.made hsocket he')]
      rw [Finmap.lookup_isSome] at hk
      exact hin.stopped k e' he' hk

end

/-- A step that leaves the tables as they are. -/
structure SameTables (s s' : State) : Prop where
  watchers : s'.watchers = s.watchers
  activeWatchers : s'.activeWatchers = s.activeWatchers
  io : s'.io = s.io
  created : s'.created = s.created
  reports : s'.reports = s.reports

theorem SameTables.tabled {s s' : State} (hs : SameTables s s') (h : Tabled s)
    (hlooped : ∀ sockets i, s'.running = .timeout sockets i → ∀ k ∈ sockets, k ∈ s.watchers) :
    Tabled s' := by
  constructor
  · unfold State.first
    rw [hs.watchers, hs.reports]
    exact h.entry
  · unfold State.last
    rw [hs.watchers, hs.reports]
    exact h.reported
  · rw [hs.watchers, hs.created]
    exact h.old
  · rw [hs.watchers, hs.io]
    exact h.own
  · rw [hs.watchers, hs.activeWatchers]
    exact h.shared
  · rw [hs.watchers]
    exact hlooped

theorem SameTables.inStep {s s' : State} (hs : SameTables s s') (h : InStep s) : InStep s' := by
  constructor
  · unfold State.last
    rw [hs.activeWatchers, hs.reports]
    exact h.active
  · unfold State.last
    rw [hs.activeWatchers, hs.io, hs.reports]
    exact h.started
  · rw [hs.watchers, hs.activeWatchers, hs.io]
    exact h.stopped

/-- A socket that is active has an entry. -/
theorem mem_watchers_of_active {s : State} (h : Tabled s) {k : ℕ} (hk : k ∈ s.activeWatchers) :
    k ∈ s.watchers := by
  obtain ⟨w, hw⟩ := Finmap.mem_iff.mp hk
  obtain ⟨e, he, -⟩ := h.shared k w hw
  exact Finmap.mem_of_lookup_eq_some he

/-- What `next` does in a loop that has not come to its end: the socket has an entry. -/
theorem next_timeout {s : State} (h : Tabled s) {sockets : List ℕ} {i k : ℕ}
    (hrunning : s.running = .timeout sockets i) (hk : sockets[i]? = some k) :
    ∃ e, s.watchers.lookup k = some e ∧
      s.next = some { s.processFD e.read e.write k with running := .timeout sockets (i + 1) } := by
  obtain ⟨e, he⟩ := Finmap.mem_iff.mp (h.looped sockets i hrunning k (List.mem_of_getElem? hk))
  refine ⟨e, he, ?_⟩
  unfold State.next
  rw [hrunning]
  dsimp only
  rw [hk]
  dsimp only
  rw [he]

theorem next_timeout_end {s : State} {sockets : List ℕ} {i : ℕ}
    (hrunning : s.running = .timeout sockets i) (hi : sockets[i]? = none) :
    s.next = some { s.updateTimer with running := .idle } := by
  unfold State.next
  rw [hrunning]
  dsimp only
  rw [hi]

theorem sameTables_next {s s' : State} (hs : s.next = some s') : SameTables s s' ∧
    ∀ sockets i, s'.running = .timeout sockets i → ∃ i', s.running = .timeout sockets i' := by
  unfold State.next at hs
  split at hs
  · exact nomatch hs
  · obtain rfl := Option.some.inj hs
    exact ⟨⟨rfl, rfl, rfl, rfl, rfl⟩, nofun⟩
  · rename_i sockets i hrunning
    split at hs
    · obtain rfl := Option.some.inj hs
      exact ⟨⟨rfl, rfl, rfl, rfl, rfl⟩, nofun⟩
    · split at hs
      · obtain rfl := Option.some.inj hs
        exact ⟨⟨rfl, rfl, rfl, rfl, rfl⟩, nofun⟩
      · obtain rfl := Option.some.inj hs
        refine ⟨⟨rfl, rfl, rfl, rfl, rfl⟩, fun sockets' i' h' => ?_⟩
        obtain ⟨rfl, rfl⟩ := Running.timeout.inj h'
        exact ⟨i, hrunning⟩

theorem step_timeout {s s' : State} {sockets : List ℕ} (hs : step s (.timeout sockets) = some s') :
    s.running = .idle ∧ sockets.Nodup ∧ (∀ k, k ∈ sockets ↔ k ∈ s.activeWatchers) ∧
      s' = { s with timer := false, running := .timeout sockets 0 } := by
  unfold step at hs
  dsimp only at hs
  split at hs
  · rename_i hidle
    split_ifs at hs with hkeys
    refine ⟨hidle, hkeys.2.1, fun k => ?_, (Option.some.inj hs).symm⟩
    rw [← List.mem_toFinset, hkeys.2.2, Finmap.mem_keys]
  · exact nomatch hs

theorem step_ready {s s' : State} {w : ℕ} {read write : Bool}
    (hs : step s (.ready w read write) = some s') :
    s.running = .idle ∧ s' = s.ready w read write := by
  unfold step at hs
  dsimp only at hs
  split at hs
  · rename_i hidle
    split_ifs at hs
    exact ⟨hidle, (Option.some.inj hs).symm⟩
  · exact nomatch hs

theorem kept_step {s s' : State} {a : Action} (h : Tabled s) (hin : InStep s)
    (hs : step s a = some s') : Tabled s' ∧ InStep s' := by
  cases a with
  | report r =>
    obtain rfl := Option.some.inj hs
    obtain ⟨e, he⟩ := sockStateCb_reported h r
    have hreported : Reported s r e { s.sockStateCb r with reports := r :: s.reports } :=
      { he with }
    exact ⟨tabled_report h hreported rfl, inStep_report h hin hreported rfl⟩
  | timeout sockets =>
    obtain ⟨-, -, hkeys, rfl⟩ := step_timeout hs
    have hsame : SameTables s { s with timer := false, running := .timeout sockets 0 } :=
      ⟨rfl, rfl, rfl, rfl, rfl⟩
    refine ⟨hsame.tabled h fun sockets' i heq k hk => ?_, hsame.inStep hin⟩
    obtain ⟨rfl, -⟩ := Running.timeout.inj heq
    exact mem_watchers_of_active h ((hkeys k).mp hk)
  | ready w read write =>
    obtain ⟨-, rfl⟩ := step_ready hs
    have hsame : SameTables s (s.ready w read write) := ⟨rfl, rfl, rfl, rfl, rfl⟩
    exact ⟨hsame.tabled h nofun, hsame.inStep hin⟩
  | next =>
    obtain ⟨hsame, hrunning⟩ := sameTables_next hs
    refine ⟨hsame.tabled h fun sockets i heq => ?_, hsame.inStep hin⟩
    obtain ⟨i', hi'⟩ := hrunning sockets i heq
    exact h.looped sockets i' hi'

/-! ### The calls of the timeout callback -/

/-- The timeout callback goes through the active sockets, and its call for each is made with the
interests of the socket's last report. -/
def Processed (s : State) (a : Action) (s' : State) : Prop :=
  match a, s.running with
  | .timeout sockets, _ =>
    s'.running = .timeout sockets 0 ∧ sockets.Nodup ∧ ∀ k, k ∈ sockets ↔ k ∈ s.activeWatchers
  | .next, .timeout sockets i =>
    match sockets[i]? with
    | some k => ∃ r, s.last k = some r ∧ s'.calls = s.calls ++ [r.interests] ∧
        s'.running = .timeout sockets (i + 1)
    | none => s'.calls = s.calls ∧ s'.running = .idle
  | _, _ => True

/-- If the timeout callback comes to a socket, then its last report has the flags of its first. -/
def Unchanged (s : State) (a : Action) : Prop :=
  a = .next → ∀ sockets i, s.running = .timeout sockets i → ∀ k, sockets[i]? = some k →
    ∀ r r', s.first k = some r → s.last k = some r' → r.read = r'.read ∧ r.write = r'.write

theorem interest_inj {b b' : Bool} {k : ℕ} : interest b k = interest b' k ↔ b = b' := by
  have hbad : (k : ℤ) ≠ SOCKET_BAD := by
    unfold SOCKET_BAD
    omega
  cases b <;> cases b' <;> simp [interest, hbad, hbad.symm]

theorem interests_eq {r : Report} {k : ℕ} (hk : r.socket = k) {read write : Bool} :
    (interest read k, interest write k) = r.interests ↔ read = r.read ∧ write = r.write := by
  unfold Report.interests
  rw [hk, Prod.mk.injEq, interest_inj, interest_inj]

theorem processed_iff {s s' : State} {a : Action} (h : Tabled s) (hs : step s a = some s') :
    Processed s a s' ↔ Unchanged s a := by
  cases a with
  | report r => exact iff_of_true trivial nofun
  | ready w read write => exact iff_of_true trivial nofun
  | timeout sockets =>
    obtain ⟨-, hnodup, hkeys, rfl⟩ := step_timeout hs
    exact iff_of_true ⟨rfl, hnodup, hkeys⟩ nofun
  | next =>
    cases hrunning : s.running with
    | idle =>
      have hnone : s.next = none := by
        unfold State.next
        rw [hrunning]
      exact nomatch hnone.symm.trans hs
    | ready =>
      unfold Processed
      rw [hrunning]
      exact iff_of_true trivial fun _ sockets i heq => nomatch hrunning.symm.trans heq
    | timeout sockets i =>
      unfold Processed
      rw [hrunning]
      dsimp only
      cases hk : sockets[i]? with
      | none =>
        obtain rfl := Option.some.inj ((next_timeout_end hrunning hk).symm.trans hs)
        refine iff_of_true ⟨rfl, rfl⟩ fun _ sockets' i' heq k hk' => ?_
        obtain ⟨rfl, rfl⟩ := Running.timeout.inj (hrunning.symm.trans heq)
        exact nomatch hk.symm.trans hk'
      | some k =>
        obtain ⟨e, he, hnext⟩ := next_timeout h hrunning hk
        obtain rfl := Option.some.inj (hnext.symm.trans hs)
        obtain ⟨r, hfirst, hread, hwrite⟩ := h.entry k e he
        obtain ⟨r', hlast⟩ :=
          Option.isSome_iff_exists.mp ((h.reported k).mp (Finmap.mem_of_lookup_eq_some he))
        have hcall : ((interest e.read k, interest e.write k) = r'.interests) ↔
            r.read = r'.read ∧ r.write = r'.write := by
          rw [interests_eq (socket_of_last hlast), hread, hwrite]
        constructor
        · rintro ⟨r'', hr'', hcalls, -⟩ - sockets' i' heq k' hk' r₁ r₁' hr₁ hr₁'
          obtain ⟨rfl, rfl⟩ := Running.timeout.inj (hrunning.symm.trans heq)
          obtain rfl := Option.some.inj (hk.symm.trans hk')
          obtain rfl := Option.some.inj (hfirst.symm.trans hr₁)
          obtain rfl := Option.some.inj (hlast.symm.trans hr₁')
          obtain rfl := Option.some.inj (hlast.symm.trans hr'')
          exact hcall.mp (List.cons.inj (List.append_cancel_left hcalls)).1
        · intro hunchanged
          have hflags := hunchanged rfl sockets i hrunning k hk r r' hfirst hlast
          refine ⟨r', hlast, ?_, rfl⟩
          rw [← hcall.mpr hflags]
          rfl

/-- What `processFD` is called with by the timeout callback. -/
def State.recorded (s : State) (k : ℕ) : ℤ × ℤ :=
  ((s.watchers.lookup k).map fun e => (interest e.read k, interest e.write k)).getD
    (SOCKET_BAD, SOCKET_BAD)

/-- While the timeout callback runs, the entries there are stay as they are. -/
theorem recorded_step {s s' : State} {a : Action} (h : Tabled s) (hs : step s a = some s') {k : ℕ}
    (hk : k ∈ s.watchers) : s'.watchers.lookup k = s.watchers.lookup k := by
  cases a with
  | report r =>
    obtain rfl := Option.some.inj hs
    obtain ⟨e, he⟩ := sockStateCb_reported h r
    refine (he.watchers k).trans ?_
    split_ifs with hsocket
    · rcases he.made with hold | ⟨hnone, -⟩
      · rw [hsocket, hold]
      · rw [hsocket] at hk
        exact absurd hk (Finmap.lookup_eq_none.mp hnone)
    · rfl
  | timeout sockets =>
    obtain ⟨-, -, -, rfl⟩ := step_timeout hs
    rfl
  | ready w read write =>
    obtain ⟨-, rfl⟩ := step_ready hs
    rfl
  | next =>
    rw [(sameTables_next hs).1.watchers]

/-- The timeout callback calls `processFD` once for each of its sockets, in their order. -/
theorem calls_of_timeout {s s' : State} {as : List Action} {sockets : List ℕ} {i n : ℕ}
    (h : Tabled s) (hin : InStep s) (hrunning : s.running = .timeout sockets i)
    (hrun : run step s as = some s') (hn : as.count .next = n) (hle : i + n ≤ sockets.length) :
    s'.running = .timeout sockets (i + n) ∧
      s'.calls = s.calls ++ ((sockets.drop i).take n).map s.recorded := by
  induction as generalizing s i n with
  | nil =>
    obtain rfl := Option.some.inj hrun
    subst hn
    simp [hrunning]
  | cons a as ih =>
    obtain ⟨s₁, h₁, h₂⟩ := Option.bind_eq_some_iff.mp hrun
    obtain ⟨htabled, hinStep⟩ := kept_step h hin h₁
    have hsame : ∀ k ∈ sockets, s₁.recorded k = s.recorded k := fun k hk => by
      unfold State.recorded
      rw [recorded_step h h₁ (h.looped sockets i hrunning k hk)]
    cases a with
    | report r =>
      obtain ⟨e, he⟩ := sockStateCb_reported h r
      obtain rfl := Option.some.inj h₁
      obtain ⟨hend, hcalls⟩ := ih htabled hinStep (he.running.trans hrunning) h₂
        (by rw [← hn, List.count_cons_of_ne (by simp)]) hle
      refine ⟨hend, ?_⟩
      rw [hcalls]
      exact congrArg₂ _ he.calls (List.map_congr_left fun k hk =>
        hsame k (List.mem_of_mem_drop (List.mem_of_mem_take hk)))
    | timeout sockets => exact nomatch (step_timeout h₁).1.symm.trans hrunning
    | ready w read write => exact nomatch (step_ready h₁).1.symm.trans hrunning
    | next =>
      obtain ⟨m, rfl⟩ : ∃ m, n = m + 1 := ⟨as.count .next, by rw [← hn, List.count_cons_self]⟩
      have hi : i < sockets.length := by omega
      obtain ⟨e, he, hnext⟩ := next_timeout h hrunning (List.getElem?_eq_getElem hi)
      obtain rfl := Option.some.inj (hnext.symm.trans h₁)
      rw [List.count_cons_self] at hn
      obtain ⟨hend, hcalls⟩ := ih htabled hinStep rfl h₂ (Nat.succ.inj hn) (by omega)
      refine ⟨by rw [hend, Nat.add_assoc, Nat.add_comm 1 m], ?_⟩
      have hrecorded : s.recorded sockets[i] =
          (interest e.read sockets[i], interest e.write sockets[i]) := by
        unfold State.recorded
        rw [he]
        rfl
      rw [hcalls, List.drop_eq_getElem_cons hi, List.take_succ_cons, List.map_cons, hrecorded]
      exact List.append_assoc _ _ _

theorem tabled_new : Tabled {} where
  entry k e he := by simp at he
  reported k := by simp [State.last, Finmap.notMem_empty]
  old k e he := by simp at he
  own k e he := by simp at he
  shared k w hw := by simp at hw
  looped _ _ := nofun

theorem inStep_new : InStep {} where
  active k := by simp [State.last, Finmap.notMem_empty]
  started k w r hw := by simp at hw
  stopped k e he := by simp at he

/-- In every run the tables are in step, and the calls of the timeout callback are those for the
last reports as long as these have the flags of the first ones. -/
theorem processFD_iff (as : List Action) :
    Along step (fun s a s' => InStep s' ∧ Processed s a s') {} as ↔
      Along step (fun s a _ => Unchanged s a) {} as := by
  refine along_congr (I := fun s => Tabled s ∧ InStep s) ⟨tabled_new, inStep_new⟩
    (fun s a s' h hs => kept_step h.1 h.2 hs) (fun s a s' h hs => ?_) as
  rw [processed_iff h.1 hs]
  exact and_iff_right (kept_step h.1 h.2 hs).2

/-- A socket whose write interest is reported later than its read interest. -/
def connecting : List Action :=
  [.report ⟨5, true, false, none⟩, .report ⟨5, true, true, none⟩, .timeout [5]]

theorem not_processFD : ¬ ∀ as,
    Along step (fun s a s' => InStep s' ∧ Processed s a s') {} as := by
  intro h
  obtain ⟨s, hrun, hrunning, hlast, s', hnext, hcalls⟩ : ∃ s : State,
      run step {} connecting = some s ∧ s.running = .timeout [5] 0 ∧
        s.last 5 = some ⟨5, true, true, none⟩ ∧
          ∃ s', step s .next = some s' ∧ s'.calls = s.calls ++ [(5, SOCKET_BAD)] :=
    ⟨_, rfl, rfl, rfl, _, rfl, rfl⟩
  obtain ⟨-, hprocessed⟩ := (h (connecting ++ [.next])).last hrun hnext
  unfold Processed at hprocessed
  rw [hrunning] at hprocessed
  obtain ⟨r, hr, hcall, -⟩ := hprocessed
  obtain rfl := Option.some.inj (hlast.symm.trans hr)
  rw [hcalls] at hcall
  exact absurd (List.append_cancel_left hcall) (by decide)

end NodeJS.Dns
