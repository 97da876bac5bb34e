import Mathlib.Data.List.Nodup
import Mathlib.Logic.Function.Basic
import Mathlib.Tactic.Common
import NodeJS.Lib.Reach

/-! `ChildProcess` of `child_process.js` after `spawn`: its two output streams, as `net.js` ends
and closes them, and the three handlers that emit `'exit'`. -/
namespace NodeJS.Child
open Lib

inductive Name
  | stdout
  | stderr
  deriving DecidableEq, Repr

def Name.other : Name → Name
  | .stdout => .stderr
  | .stderr => .stdout

/-- A socket that is never writable. -/
structure Stream where
  readable : Bool
  /-- Whether `fd` is a number. -/
  fd : Bool
  deriving DecidableEq, Repr

structure ChildProcess where
  stdin : Bool
  /-- A stream is `null` where the child was given a descriptor of the caller. -/
  stream : Name → Option Stream
  closed : Name → Bool
  gotCHLD : Bool
  /-- The functions that `destroy` passed to `nextTick`, and whether with an exception. -/
  ticks : List (Name × Bool)
  /-- How often `'exit'` was emitted. -/
  exits : ℕ

/-- The end of `ChildProcess.prototype.spawn`, and of `fork`. -/
def spawn (stdin : Bool) (piped : Name → Bool) : ChildProcess where
  stdin := stdin
  stream name := if piped name then some ⟨true, true⟩ else none
  closed _ := false
  gotCHLD := false
  ticks := []
  exits := 0

/-- `!self.stdout || !self.stdout.readable` -/
def ChildProcess.ended (s : ChildProcess) (name : Name) : Bool :=
  (s.stream name).all fun stream => !stream.readable

def ChildProcess.setStream (s : ChildProcess) (name : Name) (stream : Stream) : ChildProcess :=
  { s with stream := Function.update s.stream name (some stream) }

/-- `self.emit('exit', exitCode, termSignal)` -/
def ChildProcess.emitExit (s : ChildProcess) : ChildProcess := { s with exits := s.exits + 1 }

def destroy (s : ChildProcess) (name : Name) (exception : Bool) : ChildProcess :=
  match s.stream name with
  | none => s
  | some stream =>
    if stream.fd then
      { s.setStream name ⟨false, false⟩ with ticks := s.ticks ++ [(name, exception)] }
    else s.setStream name { stream with readable := false }

def destroyAll (s : ChildProcess) (calls : List (Name × Bool)) : ChildProcess :=
  calls.foldl (fun s call => destroy s call.1 call.2) s

/-- The two listeners of `'close'`. -/
def onclose (s : ChildProcess) (name : Name) : ChildProcess :=
  let s := { s with closed := Function.update s.closed name true }
  if s.gotCHLD && ((s.stream name.other).isNone || s.closed name.other) then s.emitExit else s

/-- `internal.onexit`. The callbacks that `self.stdin.end()` runs may destroy streams and throw. -/
def onexit (s : ChildProcess) (calls : List (Name × Bool)) (throws : Bool) : ChildProcess :=
  let s := { s with gotCHLD := true }
  let s := if s.stdin then destroyAll s calls else s
  if s.stdin && throws then s
  else if s.ended .stdout && s.ended .stderr then s.emitExit else s

inductive Action
  /-- The exit notification. -/
  | exited (calls : List (Name × Bool)) (throws : Bool)
  /-- `_onReadable` reads nothing. -/
  | endOfFile (name : Name)
  /-- `_readImpl` throws; `reset` if the code is `ECONNRESET`. -/
  | readError (name : Name) (reset : Bool)
  /-- The program destroys a stream. -/
  | destroy (name : Name) (exception : Bool)
  /-- The next function in the queue of `nextTick`. The listeners of `'error'` may destroy streams
  and throw, as `emit` does without any. -/
  | tick (calls : List (Name × Bool)) (throws : Bool)
  deriving DecidableEq, Repr

/-- Whether there is a watcher that reads from the stream. -/
def ChildProcess.reads (s : ChildProcess) (name : Name) : Bool :=
  (s.stream name).any fun stream => stream.fd

def step (s : ChildProcess) : Action → Option ChildProcess
  | .exited calls throws => if s.gotCHLD then none else some (onexit s calls throws)
  | .endOfFile name =>
    if s.reads name then some (destroy (s.setStream name ⟨false, true⟩) name false) else none
  | .readError name reset => if s.reads name then some (destroy s name !reset) else none
  | .destroy name exception => some (destroy s name exception)
  | .tick calls throws =>
    match s.ticks with
    | [] => none
    | (name, exception) :: ticks =>
      let s := { s with ticks := ticks }
      if exception then
        let s := destroyAll s calls
        some (if throws then s else onclose s name)
      else some (onclose s name)

/-- Both existing streams have ended, and so has the child. -/
def ChildProcess.Finished (s : ChildProcess) : Prop :=
  s.gotCHLD = true ∧ ∀ name, s.ended name = true

/-- When `onexit` finds that both streams have ended, no `'close'` of them is still to come. -/
def Timely (s : ChildProcess) : Action → Prop
  | .exited calls throws =>
    let s := { s with gotCHLD := true }
    let s := if s.stdin then destroyAll s calls else s
    (s.stdin && throws) = false → (∀ name, s.ended name = true) → s.ticks = []
  | _ => True

/-- The `'close'` of the stream has been taken from the queue. -/
def ChildProcess.Gone (s : ChildProcess) (name : Name) : Prop :=
  s.stream name = some ⟨false, false⟩ ∧ ∀ tick ∈ s.ticks, tick.1 ≠ name

/-- A stream is readable as long as it has its descriptor, and its one `'close'` is in the queue or
has been seen. -/
structure Inv (s : ChildProcess) : Prop where
  readable : ∀ name stream, s.stream name = some stream → stream.readable = stream.fd
  pending : ∀ tick ∈ s.ticks, s.stream tick.1 = some ⟨false, false⟩
  closed : ∀ name, s.closed name = true → s.Gone name
  nodup : (s.ticks.map Prod.fst).Nodup
  after : 0 < s.exits → s.Finished

theorem inv_spawn (stdin : Bool) (piped : Name → Bool) : Inv (spawn stdin piped) where
  readable name stream h := by
    unfold spawn at h
    dsimp only at h
    split_ifs at h
    obtain rfl := Option.some.inj h
    rfl
  pending tick h := absurd h List.not_mem_nil
  closed name h := absurd h Bool.false_ne_true
  nodup := List.nodup_nil
  after h := absurd h (Nat.lt_irrefl 0)

section
variable {s : ChildProcess}

theorem ended_of_closed {name : Name} (h : s.stream name = some ⟨false, false⟩) :
    s.ended name = true := by
  unfold ChildProcess.ended
  rw [h]
  rfl

theorem fd_of_ended (hinv : Inv s) {name : Name} {stream : Stream}
    (hstream : s.stream name = some stream) (h : s.ended name = true) : stream.fd = false := by
  unfold ChildProcess.ended at h
  rw [hstream, Option.all_some, Bool.not_eq_true'] at h
  rw [← hinv.readable name stream hstream]
  exact h

theorem fd_of_reads {name : Name} (h : s.reads name = true) :
    ∃ stream, s.stream name = some stream ∧ stream.fd = true := by
  unfold ChildProcess.reads at h
  cases hstream : s.stream name with
  | none =>
    rw [hstream] at h
    exact absurd h Bool.false_ne_true
  | some stream =>
    rw [hstream] at h
    exact ⟨stream, rfl, h⟩

/-- Nothing has been emitted as long as a stream has its descriptor. -/
theorem exits_of_fd (hinv : Inv s) {name : Name} {stream : Stream}
    (hstream : s.stream name = some stream) (hfd : stream.fd = true) : s.exits = 0 := by
  by_contra hne
  obtain ⟨-, hended⟩ := hinv.after (Nat.pos_of_ne_zero hne)
  have hfalse := fd_of_ended hinv hstream (hended name)
  exact Bool.false_ne_true (hfalse.symm.trans hfd)

/-- `destroy` does nothing where the descriptor is gone; else it closes it and queues `'close'`. -/
theorem destroy_cases (hinv : Inv s) (name : Name) (exception : Bool) :
    destroy s name exception = s ∨
      (∃ stream, s.stream name = some stream ∧ stream.fd = true) ∧
      destroy s name exception =
        { s.setStream name ⟨false, false⟩ with ticks := s.ticks ++ [(name, exception)] } := by
  unfold destroy
  cases hstream : s.stream name with
  | none => exact .inl rfl
  | some stream =>
    dsimp only
    split_ifs with hfd
    · exact .inr ⟨⟨stream, rfl, hfd⟩, rfl⟩
    · have hreadable : stream.readable = false := by
        rw [hinv.readable name stream hstream]
        exact Bool.eq_false_iff.mpr hfd
      left
      unfold ChildProcess.setStream
      rw [← hreadable, Function.update_eq_self_iff.mpr hstream.symm]

/-- A stream with a descriptor loses it, and its `'close'` is queued. -/
theorem inv_close (hinv : Inv s) {name : Name} {stream : Stream}
    (hstream : s.stream name = some stream) (hfd : stream.fd = true) (exception : Bool) :
    Inv { s.setStream name ⟨false, false⟩ with ticks := s.ticks ++ [(name, exception)] } := by
  have hopen : ∀ n, s.stream n = some ⟨false, false⟩ → n ≠ name := by
    rintro n hn rfl
    rw [hn] at hstream
    rw [← Option.some.inj hstream] at hfd
    exact Bool.false_ne_true hfd
  have hself : Function.update s.stream name (some ⟨false, false⟩) name = some ⟨false, false⟩ :=
    Function.update_self _ _ _
  have hother : ∀ n, n ≠ name →
      Function.update s.stream name (some ⟨false, false⟩) n = s.stream n := fun n hn =>
    Function.update_of_ne hn _ _
  constructor
  · intro n st hst
    by_cases hn : n = name
    · subst hn
      obtain rfl := Option.some.inj (hself.symm.trans hst)
      rfl
    · exact hinv.readable n st ((hother n hn).symm.trans hst)
  · intro tick htick
    rcases List.mem_append.mp htick with htick | htick
    · have hpending := hinv.pending tick htick
      exact (hother _ (hopen _ hpending)).trans hpending
    · obtain rfl := List.mem_singleton.mp htick
      exact hself
  · intro n hn
    obtain ⟨hclosed, hticks⟩ := hinv.closed n hn
    refine ⟨(hother n (hopen n hclosed)).trans hclosed, fun tick htick => ?_⟩
    rcases List.mem_append.mp htick with htick | htick
    · exact hticks tick htick
    · obtain rfl := List.mem_singleton.mp htick
      exact (hopen n hclosed).symm
  · rw [List.map_append, List.nodup_append]
    refine ⟨hinv.nodup, List.nodup_singleton _, ?_⟩
    rintro _ hmem b hb rfl
    obtain ⟨tick, htick, rfl⟩ := List.mem_map.mp hmem
    exact hopen _ (hinv.pending tick htick) (List.mem_singleton.mp hb)
  · intro hexits
    exact absurd (exits_of_fd hinv hstream hfd) (Nat.ne_of_gt hexits)

theorem inv_destroy (hinv : Inv s) (name : Name) (exception : Bool) :
    Inv (destroy s name exception) := by
  rcases destroy_cases hinv name exception with heq | ⟨⟨stream, hstream, hfd⟩, heq⟩
  · rw [heq]
    exact hinv
  · rw [heq]
    exact inv_close hinv hstream hfd exception

theorem destroy_frame (name : Name) (exception : Bool) :
    (destroy s name exception).exits = s.exits ∧
      (destroy s name exception).gotCHLD = s.gotCHLD := by
  unfold destroy
  split
  · exact ⟨rfl, rfl⟩
  · split_ifs <;> exact ⟨rfl, rfl⟩

theorem destroy_gone (hinv : Inv s) {name : Name} (h : s.Gone name) (name' : Name)
    (exception : Bool) : (destroy s name' exception).Gone name := by
  rcases destroy_cases hinv name' exception with heq | ⟨⟨stream, hstream, hfd⟩, heq⟩
  · rw [heq]
    exact h
  · have hne : name' ≠ name := by
      rintro rfl
      rw [h.1] at hstream
      rw [← Option.some.inj hstream] at hfd
      exact Bool.false_ne_true hfd
    rw [heq]
    refine ⟨(Function.update_of_ne hne.symm _ _).trans h.1, fun tick htick => ?_⟩
    rcases List.mem_append.mp htick with htick | htick
    · exact h.2 tick htick
    · obtain rfl := List.mem_singleton.mp htick
      exact hne

theorem destroyAll_spec (hinv : Inv s) (calls : List (Name × Bool)) :
    Inv (destroyAll s calls) ∧ (destroyAll s calls).exits = s.exits ∧
      (destroyAll s calls).gotCHLD = s.gotCHLD ∧
      ∀ name, s.Gone name → (destroyAll s calls).Gone name := by
  induction calls generalizing s with
  | nil => exact ⟨hinv, rfl, rfl, fun _ h => h⟩
  | cons call calls ih =>
    obtain ⟨hinv', hexits, hgot, hgone⟩ := ih (inv_destroy hinv call.1 call.2)
    obtain ⟨hexits', hgot'⟩ := destroy_frame (s := s) call.1 call.2
    exact ⟨hinv', hexits.trans hexits', hgot.trans hgot',
      fun name h => hgone name (destroy_gone hinv h _ _)⟩

/-- `'exit'` is emitted where the notification has come and both streams have ended. -/
theorem inv_emitExit (hinv : Inv s) (h : s.Finished) : Inv s.emitExit :=
  ⟨hinv.readable, hinv.pending, hinv.closed, hinv.nodup, fun _ => h⟩

/-- What `onclose` finds when it emits `'exit'`. -/
theorem finished_onclose (hinv : Inv s) {name : Name} (hclosed : s.closed name = true)
    (hif : (s.gotCHLD && ((s.stream name.other).isNone || s.closed name.other)) = true) :
    s.Finished ∧ s.ticks = [] := by
  obtain ⟨hgot, hother⟩ := Bool.and_eq_true_iff.mp hif
  have hother : s.stream name.other = none ∨ s.Gone name.other := by
    rcases Bool.or_eq_true_iff.mp hother with hnone | hclosed'
    · exact .inl (Option.isNone_iff_eq_none.mp hnone)
    · exact .inr (hinv.closed _ hclosed')
  have hgone := hinv.closed _ hclosed
  have hcases : ∀ n, n = name ∨ n = name.other := by
    intro n
    cases n <;> cases name <;> simp [Name.other]
  refine ⟨⟨hgot, fun n => ?_⟩, List.eq_nil_iff_forall_not_mem.mpr fun tick htick => ?_⟩
  · rcases hcases n with rfl | rfl
    · exact ended_of_closed hgone.1
    · rcases hother with hnone | hgone'
      · unfold ChildProcess.ended
        rw [hnone]
        rfl
      · exact ended_of_closed hgone'.1
  · rcases hcases tick.1 with heq | heq
    · exact hgone.2 tick htick heq
    · rcases hother with hnone | hgone'
      · have hpending := hinv.pending tick htick
        rw [heq, hnone] at hpending
        exact absurd hpending nofun
      · exact hgone'.2 tick htick heq

theorem onclose_spec (hinv : Inv s) {name : Name} (hgone : s.Gone name) :
    Inv (onclose s name) ∧ ((onclose s name).exits = s.exits ∨
      (onclose s name).exits = s.exits + 1 ∧ (onclose s name).ticks = []) := by
  have hclosed : Inv { s with closed := Function.update s.closed name true } := by
    refine ⟨hinv.readable, hinv.pending, fun n hn => ?_, hinv.nodup, hinv.after⟩
    by_cases heq : n = name
    · rw [heq]
      exact hgone
    · exact hinv.closed n ((Function.update_of_ne heq _ _).symm.trans hn)
  unfold onclose
  dsimp only
  split_ifs with hif
  · obtain ⟨hfinished, hticks⟩ :=
      finished_onclose hclosed (Function.update_self name true s.closed) hif
    exact ⟨inv_emitExit hclosed hfinished, .inr ⟨rfl, hticks⟩⟩
  · exact ⟨hclosed, .inl rfl⟩

/-- `'exit'` was emitted once at most, and then no `'close'` is still to come. -/
def ChildProcess.Once (s : ChildProcess) : Prop :=
  s.exits ≤ 1 ∧ (0 < s.exits → s.ticks = [])

theorem once_of_zero (h : s.exits = 0) : s.Once :=
  ⟨by omega, fun hpos => absurd h (Nat.ne_of_gt hpos)⟩

theorem onexit_spec (hinv : Inv s) (hgot : s.gotCHLD = false) (calls : List (Name × Bool))
    (throws : Bool) : Inv (onexit s calls throws) ∧
      (Timely s (.exited calls throws) → (onexit s calls throws).Once) := by
  have hexits : s.exits = 0 := by
    by_contra hne
    exact Bool.false_ne_true (hgot.symm.trans (hinv.after (Nat.pos_of_ne_zero hne)).1)
  have hgotten : Inv { s with gotCHLD := true } :=
    ⟨hinv.readable, hinv.pending, hinv.closed, hinv.nodup, fun h => absurd hexits (Nat.ne_of_gt h)⟩
  unfold onexit Timely
  dsimp only
  generalize hs' : (if s.stdin = true then _ else _ : ChildProcess) = s'
  have hspec : Inv s' ∧ s'.exits = 0 ∧ s'.gotCHLD = true := by
    rw [← hs']
    split_ifs
    · obtain ⟨hall, hsame, hgot', -⟩ := destroyAll_spec hgotten calls
      exact ⟨hall, hsame.trans hexits, hgot'⟩
    · exact ⟨hgotten, hexits, rfl⟩
  obtain ⟨hinv', hexits', hgot'⟩ := hspec
  split_ifs with hthrows hif
  · exact ⟨hinv', fun _ => once_of_zero hexits'⟩
  · obtain ⟨hout, herr⟩ := Bool.and_eq_true_iff.mp hif
    have hended : ∀ name, s'.ended name = true := fun name => by
      cases name
      · exact hout
      · exact herr
    refine ⟨inv_emitExit hinv' ⟨hgot', hended⟩, fun htimely => ⟨?_, fun _ => ?_⟩⟩
    · exact Nat.le_of_eq (congrArg (· + 1) hexits')
    · exact htimely (Bool.eq_false_iff.mpr hthrows) hended
  · exact ⟨hinv', fun _ => once_of_zero hexits'⟩

/-- After the function of a `'close'` has been taken from the queue. -/
theorem inv_pop (hinv : Inv s) {name : Name} {exception : Bool} {ticks : List (Name × Bool)}
    (hticks : s.ticks = (name, exception) :: ticks) :
    Inv { s with ticks := ticks } ∧ ({ s with ticks := ticks } : ChildProcess).Gone name := by
  have hmem : ∀ tick ∈ ticks, tick ∈ s.ticks := fun tick h => by
    rw [hticks]
    exact List.mem_cons_of_mem _ h
  have hnodup := hinv.nodup
  rw [hticks, List.map_cons, List.nodup_cons] at hnodup
  refine ⟨⟨hinv.readable, fun tick h => hinv.pending tick (hmem tick h), fun n hn => ?_,
    hnodup.2, hinv.after⟩, ?_, fun tick htick heq => ?_⟩
  · obtain ⟨hstream, hnot⟩ := hinv.closed n hn
    exact ⟨hstream, fun tick h => hnot tick (hmem tick h)⟩
  · exact hinv.pending (name, exception) (by rw [hticks]; exact List.mem_cons_self)
  · exact hnodup.1 (List.mem_map.mpr ⟨tick, htick, heq⟩)

/-- Each step keeps the invariant, and a timely one emits `'exit'` as the last thing. -/
theorem step_spec (hinv : Inv s) {a : Action} {s' : ChildProcess} (hstep : step s a = some s') :
    Inv s' ∧ (s.Once → Timely s a → s'.Once) := by
  cases a with
  | exited calls throws =>
    unfold step at hstep
    dsimp only at hstep
    split_ifs at hstep with hgot
    obtain rfl := Option.some.inj hstep
    obtain ⟨hinv', honce⟩ := onexit_spec hinv (Bool.eq_false_iff.mpr hgot) calls throws
    exact ⟨hinv', fun _ => honce⟩
  | endOfFile name =>
    unfold step at hstep
    dsimp only at hstep
    split_ifs at hstep with hreads
    obtain rfl := Option.some.inj hstep
    obtain ⟨stream, hstream, hfd⟩ := fd_of_reads hreads
    have hclose : destroy (s.setStream name ⟨false, true⟩) name false =
        { s.setStream name ⟨false, false⟩ with ticks := s.ticks ++ [(name, false)] } := by
      unfold destroy ChildProcess.setStream
      simp
    have hexits := exits_of_fd hinv hstream hfd
    rw [hclose]
    exact ⟨inv_close hinv hstream hfd false, fun _ _ => once_of_zero hexits⟩
  | readError name reset =>
    unfold step at hstep
    dsimp only at hstep
    split_ifs at hstep with hreads
    obtain rfl := Option.some.inj hstep
    obtain ⟨stream, hstream, hfd⟩ := fd_of_reads hreads
    refine ⟨inv_destroy hinv name _, fun _ _ => once_of_zero ?_⟩
    exact (destroy_frame name _).1.trans (exits_of_fd hinv hstream hfd)
  | destroy name exception =>
    obtain rfl := Option.some.inj hstep
    refine ⟨inv_destroy hinv name exception, fun honce _ => ?_⟩
    rcases destroy_cases hinv name exception with heq | ⟨⟨stream, hstream, hfd⟩, -⟩
    · rw [heq]
      exact honce
    · exact once_of_zero ((destroy_frame name exception).1.trans (exits_of_fd hinv hstream hfd))
  | tick calls throws =>
    unfold step at hstep
    cases hticks : s.ticks with
    | nil =>
      rw [hticks] at hstep
      exact absurd hstep nofun
    | cons tick ticks =>
      obtain ⟨name, exception⟩ := tick
      rw [hticks] at hstep
      obtain ⟨hpop, hgone⟩ := inv_pop hinv hticks
      have hzero : s.Once → s.exits = 0 := fun honce => by
        by_contra hne
        have hnil := honce.2 (Nat.pos_of_ne_zero hne)
        exact absurd (hticks.symm.trans hnil) (List.cons_ne_nil _ _)
      obtain ⟨hall, hexits, -, hkept⟩ := destroyAll_spec hpop calls
      have honclose : ∀ t : ChildProcess, Inv t → t.Gone name → t.exits = s.exits →
          Inv (onclose t name) ∧ (s.Once → True → (onclose t name).Once) := by
        intro t hinv hgone hexits
        obtain ⟨hinv', hcases⟩ := onclose_spec hinv hgone
        refine ⟨hinv', fun honce _ => ?_⟩
        have hzero' := hexits.trans (hzero honce)
        rcases hcases with hsame | ⟨hmore, hnil⟩
        · exact once_of_zero (hsame.trans hzero')
        · exact ⟨by omega, fun _ => hnil⟩
      cases exception with
      | false =>
        obtain rfl := Option.some.inj hstep
        exact honclose _ hpop hgone rfl
      | true =>
        obtain rfl := Option.some.inj hstep
        split_ifs
        · exact ⟨hall, fun honce _ => once_of_zero (hexits.trans (hzero honce))⟩
        · exact honclose _ hall (hkept name hgone) hexits

end

/-- `'exit'` is never emitted before the notification or before an existing stream has ended. -/
theorem exit_after (stdin : Bool) (piped : Name → Bool) {s : ChildProcess}
    (h : Reach step (fun _ _ => True) (spawn stdin piped) s) : 0 < s.exits → s.Finished := by
  have hinv : Inv s :=
    h.invariant (inv_spawn stdin piped) fun _ _ _ hs _ hstep => (step_spec hs hstep).1
  exact hinv.after

/-- `'exit'` was emitted once at most, and not before the child and its streams have ended. -/
def ChildProcess.ExitOnce (s : ChildProcess) : Prop :=
  s.exits ≤ 1 ∧ (0 < s.exits → s.Finished)

/-- The notification may come at any time but when one of the streams waits for its `'close'`
and nothing else is missing. -/
theorem exit_once (stdin : Bool) (piped : Name → Bool) {s : ChildProcess}
    (h : Reach step Timely (spawn stdin piped) s) : s.ExitOnce := by
  have hinv : Inv s ∧ s.Once := by
    refine h.invariant (P := fun s => Inv s ∧ s.Once)
      ⟨inv_spawn stdin piped, once_of_zero rfl⟩ fun s a s' hs ha hstep => ?_
    obtain ⟨hinv', honce⟩ := step_spec hs.1 hstep
    exact ⟨hinv', honce hs.2 ha⟩
  exact ⟨hinv.2.1, hinv.1.after⟩

theorem exit_once_run : ∃ s, run step (spawn true fun _ => true)
      [.exited [] false, .endOfFile .stdout, .endOfFile .stderr, .tick [] false, .tick [] false] =
        some s ∧ s.exits = 1 ∧ s.ExitOnce := by
  obtain ⟨s, hs, hone⟩ : ∃ s, run step (spawn true fun _ => true)
      [.exited [] false, .endOfFile .stdout, .endOfFile .stderr, .tick [] false, .tick [] false] =
        some s ∧ s.exits = 1 := ⟨_, rfl, rfl⟩
  refine ⟨s, hs, hone, exit_once true (fun _ => true) (reach_of_along hs ?_)⟩
  refine along_cons rfl (fun _ hended => ?_) (along_cons rfl trivial (along_cons rfl trivial
    (along_cons rfl trivial (along_cons rfl trivial trivial))))
  exact absurd (hended .stdout) (by decide)

/-- Both streams are read to their end before the notification, and closed after it. -/
theorem exit_twice : ¬ ∀ s, Reach step (fun _ _ => True) (spawn true fun _ => true) s →
    s.ExitOnce := by
  intro h
  obtain ⟨s, hs, htwice⟩ : ∃ s, run step (spawn true fun _ => true)
      [.endOfFile .stdout, .endOfFile .stderr, .exited [] false, .tick [] false, .tick [] false] =
        some s ∧ s.exits = 2 := ⟨_, rfl, rfl⟩
  have honce := (h s (reach_of_run hs fun _ _ => trivial)).1
  omega

end NodeJS.Child
