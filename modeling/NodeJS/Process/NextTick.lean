import Mathlib.Data.List.Basic
import Mathlib.Tactic.Common
import NodeJS.Lib.Reach

/-! `process.nextTick`: the queue of `node.js`, the flag and the idle watcher of `node.cc`, and the
ways control takes between the event loop and JavaScript. -/
namespace NodeJS.NextTick
open Lib

inductive Frame
  /-- `node.js` and what it loads before the loop is entered. -/
  | load
  /-- A callback called from native code, which passes an exception to `FatalException`. -/
  | callback
  /-- `nextTickQueue[i]()` in the loop of `_tickCallback`. -/
  | tick (i l : ℕ)
  /-- The `'uncaughtException'` listeners. -/
  | uncaught
  /-- The `'exit'` listeners after the loop. -/
  | exit
  /-- The function of `ChildProcess.fork`. -/
  | forked
  deriving DecidableEq, Repr

inductive End
  | uncaughtException
  | exited
  deriving DecidableEq, Repr

/-- The process, with all callbacks given to `nextTick` and all that were called so far. -/
structure State (α : Type) where
  nextTickQueue : List α
  needTickCb : Bool
  /-- Whether the watcher is active. -/
  tickSpinner : Bool
  uncaughtExceptionCounter : ℕ
  /-- Empty while control is in the event loop. -/
  stack : List Frame
  /-- The event loop has been left. -/
  ended : Bool
  /-- A process made by `ChildProcess.fork`. -/
  child : Bool
  fate : Option End
  scheduled : List α
  ran : List α
  deriving DecidableEq

inductive Action (α : Type)
  /-- Native code calls a callback. -/
  | call
  | nextTick (callback : α)
  /-- The code on top returns. -/
  | ret
  /-- It throws; `listened` if there is an `'uncaughtException'` listener. -/
  | throws (listened : Bool)
  /-- `Tick`, from one of the two watchers that run it. -/
  | tick
  /-- No watcher is left that keeps the loop going. -/
  | loopEnd
  /-- `process.reallyExit` -/
  | exit
  /-- `ChildProcess.fork` as the child sees it: the function runs, then a loop of its own, and
  the code that called `fork` is never returned to. -/
  | fork
  deriving DecidableEq

variable {α : Type}

/-- Control is about to enter `node.js`. -/
def State.init : State α := ⟨[], false, false, 0, [.load], false, false, none, [], []⟩

def State.needTickCallback (s : State α) : State α := { s with needTickCb := true, tickSpinner := true }

def State.nextTick (s : State α) (callback : α) : State α :=
  State.needTickCallback { s with
    nextTickQueue := s.nextTickQueue ++ [callback], scheduled := s.scheduled ++ [callback] }

/-- Control goes back to `rest`. After the `'exit'` listeners that is the end. -/
def State.back (s : State α) (rest : List Frame) : State α :=
  { s with stack := rest, fate := if rest = [] ∧ s.ended then some .exited else s.fate }

/-- `FatalException`, called by the native code above `rest`. -/
def State.fatalException (s : State α) (rest : List Frame) (listened : Bool) : State α :=
  if s.uncaughtExceptionCounter > 0 ∨ ¬ listened then
    { s with stack := rest, fate := some .uncaughtException }
  else { s with
    stack := .uncaught :: rest, uncaughtExceptionCounter := s.uncaughtExceptionCounter + 1 }

/-- `nextTickQueue[i]()` -/
def State.runTick (s : State α) (i l : ℕ) : Option (State α) :=
  s.nextTickQueue[i]?.map fun callback =>
    { s with stack := [.tick i l], ran := s.ran ++ [callback] }

/-- `Tick` and the head of `_tickCallback`. -/
def State.tick (s : State α) : Option (State α) :=
  if s.needTickCb then
    let s := { s with needTickCb := false, tickSpinner := false }
    let l := s.nextTickQueue.length
    if l = 0 then some s else s.runTick 0 l
  else some s

/-- The code on top returns to `rest`. -/
def State.ret (s : State α) (rest : List Frame) : Frame → Option (State α)
  | .tick i l =>
    if i + 1 < l then s.runTick (i + 1) l
    else some (State.back { s with nextTickQueue := s.nextTickQueue.drop l } rest)
  | .uncaught =>
    some (State.back { s with uncaughtExceptionCounter := s.uncaughtExceptionCounter - 1 } rest)
  | .load | .callback | .exit | .forked => some (s.back rest)

/-- The code on top throws. What an `'uncaughtException'` listener throws is dropped; a process
that has only begun, or a child in its function, dies of the exception. -/
def State.throws (s : State α) (rest : List Frame) (listened : Bool) : Frame → State α
  | .tick i l =>
    let s := { s with nextTickQueue := s.nextTickQueue.drop (i + 1) }
    let s := if i + 1 < l then s.needTickCallback else s
    s.fatalException rest listened
  | .uncaught =>
    State.back { s with uncaughtExceptionCounter := s.uncaughtExceptionCounter - 1 } rest
  | .callback | .exit => s.fatalException rest listened
  | .load | .forked => { s with stack := rest, fate := some .uncaughtException }

/-- The event loop is left; in a child made by `fork` this is `exit(0)`. -/
def State.loopEnd (s : State α) : Option (State α) :=
  if s.tickSpinner then none
  else if s.child then some { s with fate := some .exited }
  else some { s with ended := true, stack := [.exit] }

def step (s : State α) (a : Action α) : Option (State α) :=
  if s.fate.isSome then none
  else match a, s.stack with
    | .tick, [] => s.tick
    | .loopEnd, [] => s.loopEnd
    | .call, stack => some { s with stack := .callback :: stack }
    | .nextTick callback, _ :: _ => some (s.nextTick callback)
    | .ret, f :: rest => s.ret rest f
    | .throws listened, f :: rest => some (s.throws rest listened f)
    | .exit, _ :: _ => some { s with fate := some .exited }
    | .fork, _ :: _ => some { s with stack := [.forked], child := true, ended := false }
    | _, _ => none

/-! ### What waits -/

/-- The callbacks of the queue that `_tickCallback` has come to. -/
def called (stack : List Frame) : ℕ :=
  match stack.getLast? with
  | some (.tick i _) => i + 1
  | _ => 0

def State.waiting (s : State α) : List α := s.nextTickQueue.drop (called s.stack)

def State.AtLoop (s : State α) : Prop := s.stack = [] ∧ s.fate = none

/-- No child is made while a tick is being run. -/
def Apart (s : State α) (a : Action α) : Prop := a = .fork → called s.stack = 0

/-- The end of the queue as `_tickCallback` saw it when it began. -/
def reach (stack : List Frame) : ℕ :=
  match stack.getLast? with
  | some (.tick _ l) => l
  | _ => 0

/-- `_tickCallback` is called by the event loop only. -/
def TickLast : List Frame → Prop
  | [] => True
  | .tick _ _ :: rest => rest = []
  | _ :: rest => TickLast rest

/-- Every callback is either called or waits, and if `_tickCallback` does not come to it another
tick has been asked for. -/
structure Inv (s : State α) : Prop where
  order : s.scheduled = s.ran ++ s.waiting
  spinner : s.tickSpinner = s.needTickCb
  last : TickLast s.stack
  called_le : called s.stack ≤ reach s.stack
  reach_le : reach s.stack ≤ s.nextTickQueue.length
  wake : reach s.stack < s.nextTickQueue.length → s.needTickCb = true

def Frame.IsTick : Frame → Prop
  | .tick _ _ => True
  | _ => False

theorem called_cons {f : Frame} (hf : ¬ f.IsTick) (rest : List Frame) :
    called (f :: rest) = called rest ∧ reach (f :: rest) = reach rest := by
  cases rest with
  | nil => cases f <;> first | exact ⟨rfl, rfl⟩ | exact absurd trivial hf
  | cons g rest => exact ⟨rfl, rfl⟩

theorem tickLast_cons {f : Frame} (hf : ¬ f.IsTick) (rest : List Frame) :
    TickLast (f :: rest) ↔ TickLast rest := by
  cases f <;> first | exact Iff.rfl | exact absurd trivial hf

/-- What the invariant says does not depend on the frame on top, nor on how the process ends. -/
theorem Inv.congr {s s' : State α} (h : Inv s) (hqueue : s'.nextTickQueue = s.nextTickQueue)
    (hneed : s'.needTickCb = s.needTickCb) (hspinner : s'.tickSpinner = s.tickSpinner)
    (hscheduled : s'.scheduled = s.scheduled) (hran : s'.ran = s.ran)
    (hcalled : called s'.stack = called s.stack) (hreach : reach s'.stack = reach s.stack)
    (hlast : TickLast s'.stack) : Inv s' := by
  constructor
  · rw [hscheduled, hran, State.waiting, hqueue, hcalled]
    exact h.order
  · rw [hspinner, hneed]
    exact h.spinner
  · exact hlast
  · rw [hcalled, hreach]
    exact h.called_le
  · rw [hreach, hqueue]
    exact h.reach_le
  · rw [hreach, hqueue, hneed]
    exact h.wake

theorem Inv.init : Inv (State.init : State α) := ⟨rfl, rfl, trivial, Nat.le_refl _, Nat.le_refl _, nofun⟩

theorem Inv.nextTick {s : State α} (h : Inv s) (callback : α) : Inv (s.nextTick callback) := by
  have hle := Nat.le_trans h.called_le h.reach_le
  have hlen : reach s.stack ≤ (s.nextTickQueue ++ [callback]).length := by
    have hreach := h.reach_le
    rw [List.length_append]
    omega
  refine ⟨?_, rfl, h.last, h.called_le, hlen, fun _ => rfl⟩
  have horder := h.order
  unfold State.waiting at horder
  simp only [State.nextTick, State.needTickCallback, State.waiting]
  rw [List.drop_append_of_le_length hle, ← List.append_assoc, ← horder]

/-- The next callback of a tick begins. -/
theorem Inv.runTick {s s' : State α} {i l : ℕ}
    (horder : s.scheduled = s.ran ++ s.nextTickQueue.drop i) (hspinner : s.tickSpinner = s.needTickCb)
    (hil : i < l) (hl : l ≤ s.nextTickQueue.length)
    (hwake : l < s.nextTickQueue.length → s.needTickCb = true) (hs : s.runTick i l = some s') :
    Inv s' ∧ s'.ran.length = s.ran.length + 1 := by
  obtain ⟨callback, hget, rfl⟩ := Option.map_eq_some_iff.mp hs
  obtain ⟨hi, rfl⟩ := List.getElem?_eq_some_iff.mp hget
  refine ⟨⟨?_, hspinner, rfl, hil, hl, hwake⟩, by simp⟩
  rw [horder, List.drop_eq_getElem_cons hi]
  simp [State.waiting, called]

/-- The queue once `_tickCallback` is done with `n` callbacks, control being in the loop. -/
theorem Inv.splice {s : State α} {n : ℕ} (horder : s.scheduled = s.ran ++ s.nextTickQueue.drop n)
    (hspinner : s.tickSpinner = s.needTickCb)
    (hwake : n < s.nextTickQueue.length → s.needTickCb = true) :
    Inv { s with nextTickQueue := s.nextTickQueue.drop n, stack := [] } := by
  refine ⟨by simpa [State.waiting, called] using horder, hspinner, trivial, Nat.le_refl _,
    Nat.zero_le _, ?_⟩
  intro hlen
  apply hwake
  simp only [reach, List.length_drop] at hlen
  change 0 < _ at hlen
  omega

theorem Inv.back {s : State α} (h : Inv s) {f : Frame} {rest : List Frame}
    (hstack : s.stack = f :: rest) (hf : ¬ f.IsTick) : Inv (s.back rest) := by
  obtain ⟨hcalled, hreach⟩ := called_cons hf rest
  have hlast := h.last
  rw [hstack, tickLast_cons hf] at hlast
  exact h.congr rfl rfl rfl rfl rfl (by rw [hstack, hcalled]; rfl) (by rw [hstack, hreach]; rfl) hlast

/-- `FatalException` leaves the queue alone. -/
theorem Inv.fatalException {s : State α} {rest : List Frame} (h : Inv { s with stack := rest })
    (listened : Bool) : Inv (s.fatalException rest listened) := by
  unfold State.fatalException
  split_ifs
  · exact h.congr rfl rfl rfl rfl rfl rfl rfl h.last
  · obtain ⟨hcalled, hreach⟩ := called_cons (f := .uncaught) id rest
    exact h.congr rfl rfl rfl rfl rfl hcalled hreach h.last

theorem Inv.tick {s s' : State α} (h : Inv s) (hstack : s.stack = []) (hs : s.tick = some s') :
    Inv s' ∧ (s.waiting = [] ∧ s'.ran = s.ran ∨ s'.ran.length = s.ran.length + 1) := by
  have horder := h.order
  have hwait : s.waiting = s.nextTickQueue := by rw [State.waiting, hstack]; rfl
  unfold State.tick at hs
  dsimp only at hs
  split_ifs at hs with hneed hlen
  · obtain rfl := Option.some.inj hs
    have hnil := List.length_eq_zero_iff.mp hlen
    have hl : ¬ 0 < s.nextTickQueue.length := by rw [hnil]; exact Nat.lt_irrefl 0
    refine ⟨⟨horder, rfl, h.last, h.called_le, h.reach_le, ?_⟩, Or.inl ⟨by rw [hwait, hnil], rfl⟩⟩
    intro hlt
    rw [hstack] at hlt
    exact absurd hlt hl
  · obtain ⟨hinv, hran⟩ := Inv.runTick (s := { s with needTickCb := false, tickSpinner := false })
      (by rw [List.drop_zero, ← hwait]; exact horder) rfl (Nat.pos_of_ne_zero hlen) (Nat.le_refl _)
      (fun hlt => absurd hlt (Nat.lt_irrefl _)) hs
    exact ⟨hinv, Or.inr hran⟩
  · obtain rfl := Option.some.inj hs
    have hnil : s.nextTickQueue = [] := by
      by_contra hne
      apply hneed
      apply h.wake
      rw [hstack]
      exact List.length_pos_of_ne_nil hne
    exact ⟨h, Or.inl ⟨by rw [hwait, hnil], rfl⟩⟩

/-- What is known in the middle of a tick. -/
theorem Inv.of_tick {s : State α} (h : Inv s) {i l : ℕ} {rest : List Frame}
    (hstack : s.stack = .tick i l :: rest) :
    rest = [] ∧ s.scheduled = s.ran ++ s.nextTickQueue.drop (i + 1) ∧ i < l ∧
      l ≤ s.nextTickQueue.length ∧ (l < s.nextTickQueue.length → s.needTickCb = true) := by
  have hlast := h.last
  rw [hstack] at hlast
  obtain rfl : rest = [] := hlast
  obtain ⟨horder, -, -, hcalled, hreach, hwake⟩ := h
  rw [State.waiting, hstack] at horder
  rw [hstack] at hcalled hreach hwake
  exact ⟨rfl, horder, hcalled, hreach, hwake⟩

theorem Inv.ret {s s' : State α} (h : Inv s) {f : Frame} {rest : List Frame}
    (hstack : s.stack = f :: rest) (hs : s.ret rest f = some s') : Inv s' := by
  cases f with
  | tick i l =>
    obtain ⟨rfl, horder, hil, hl, hwake⟩ := h.of_tick hstack
    simp only [State.ret] at hs
    split_ifs at hs with hi
    · exact (Inv.runTick horder h.spinner hi hl hwake hs).1
    · obtain rfl := Option.some.inj hs
      obtain rfl : i + 1 = l := by omega
      exact (Inv.splice horder h.spinner hwake).congr rfl rfl rfl rfl rfl rfl rfl trivial
  | uncaught =>
    obtain rfl := Option.some.inj hs
    exact (h.back hstack id).congr rfl rfl rfl rfl rfl rfl rfl (h.back hstack id).last
  | load | callback | exit | forked =>
    obtain rfl := Option.some.inj hs
    exact h.back hstack id

theorem Inv.throws {s : State α} (h : Inv s) {f : Frame} {rest : List Frame}
    (hstack : s.stack = f :: rest) (listened : Bool) : Inv (s.throws rest listened f) := by
  have hback : ∀ {f}, s.stack = f :: rest → ¬ f.IsTick → Inv { s with stack := rest } :=
    fun hstack hf => (h.back hstack hf).congr rfl rfl rfl rfl rfl rfl rfl (h.back hstack hf).last
  cases f with
  | tick i l =>
    obtain ⟨rfl, horder, hil, hl, hwake⟩ := h.of_tick hstack
    simp only [State.throws]
    apply Inv.fatalException
    split_ifs with hi
    · refine ⟨?_, rfl, trivial, Nat.le_refl _, Nat.zero_le _, fun _ => rfl⟩
      simpa [State.waiting, called, State.needTickCallback] using horder
    · obtain rfl : i + 1 = l := by omega
      exact Inv.splice horder h.spinner hwake
  | uncaught => exact (hback hstack id).congr rfl rfl rfl rfl rfl rfl rfl (hback hstack id).last
  | callback | exit => exact (hback hstack id).fatalException listened
  | load | forked => exact (hback hstack id).congr rfl rfl rfl rfl rfl rfl rfl (hback hstack id).last

theorem Inv.fork {s : State α} (h : Inv s) (hcalled : called s.stack = 0) :
    Inv { s with stack := [.forked], child := true, ended := false } := by
  have hreach : reach s.stack = 0 := by
    have hlast := hcalled
    unfold called at hlast
    unfold reach
    split at hlast
    · omega
    · rfl
  exact h.congr rfl rfl rfl rfl rfl hcalled.symm hreach.symm trivial

theorem inv_step {s s' : State α} {a : Action α} (h : Inv s) (hapart : Apart s a)
    (hs : step s a = some s') : Inv s' := by
  unfold step at hs
  split_ifs at hs with hover
  split at hs
  · exact (h.tick ‹_› hs).1
  · rename_i hstack
    unfold State.loopEnd at hs
    split_ifs at hs
    · obtain rfl := Option.some.inj hs
      exact h.congr rfl rfl rfl rfl rfl rfl rfl h.last
    · obtain rfl := Option.some.inj hs
      exact h.congr rfl rfl rfl rfl rfl (by rw [hstack]; rfl) (by rw [hstack]; rfl) trivial
  · rename_i hstack
    obtain rfl := Option.some.inj hs
    obtain ⟨hcalled, hreach⟩ := called_cons (f := .callback) id s.stack
    exact h.congr rfl rfl rfl rfl rfl hcalled hreach h.last
  · obtain rfl := Option.some.inj hs
    exact h.nextTick _
  · exact h.ret ‹_› hs
  · obtain rfl := Option.some.inj hs
    exact h.throws ‹_› _
  · obtain rfl := Option.some.inj hs
    exact h.congr rfl rfl rfl rfl rfl rfl rfl h.last
  · obtain rfl := Option.some.inj hs
    exact h.fork (hapart rfl)
  · cases hs

/-- Nothing scheduled is taken back, and what has been called stays called. -/
structure Grows (s s' : State α) : Prop where
  scheduled : s.scheduled <+: s'.scheduled
  ran : s.ran.length ≤ s'.ran.length

theorem Grows.of_eq {s s' : State α} (hs : s'.scheduled = s.scheduled) (hr : s'.ran = s.ran) :
    Grows s s' := ⟨hs ▸ List.prefix_rfl, Nat.le_of_eq (congrArg List.length hr.symm)⟩

theorem Grows.runTick {s s' : State α} {i l : ℕ} (hs : s.runTick i l = some s') : Grows s s' := by
  obtain ⟨callback, -, rfl⟩ := Option.map_eq_some_iff.mp hs
  exact ⟨List.prefix_rfl, by simp⟩

theorem Grows.fatalException {s t : State α} (h : Grows s t) (rest : List Frame) (listened : Bool) :
    Grows s (t.fatalException rest listened) := by
  unfold State.fatalException
  split_ifs
  · exact ⟨h.scheduled, h.ran⟩
  · exact ⟨h.scheduled, h.ran⟩

theorem grows_throws (s : State α) (rest : List Frame) (listened : Bool) (f : Frame) :
    Grows s (s.throws rest listened f) := by
  cases f with
  | tick i l =>
    simp only [State.throws]
    apply Grows.fatalException
    split_ifs <;> exact Grows.of_eq rfl rfl
  | callback | exit => exact Grows.fatalException (Grows.of_eq rfl rfl) rest listened
  | uncaught | load | forked => exact Grows.of_eq rfl rfl

theorem grows_step {s s' : State α} {a : Action α} (hs : step s a = some s') : Grows s s' := by
  unfold step at hs
  split_ifs at hs with hover
  split at hs
  · unfold State.tick at hs
    dsimp only at hs
    split_ifs at hs
    · obtain rfl := Option.some.inj hs
      exact Grows.of_eq rfl rfl
    · have hrun := Grows.runTick hs
      exact ⟨hrun.scheduled, hrun.ran⟩
    · obtain rfl := Option.some.inj hs
      exact Grows.of_eq rfl rfl
  · unfold State.loopEnd at hs
    split_ifs at hs
    all_goals
      obtain rfl := Option.some.inj hs
      exact Grows.of_eq rfl rfl
  · obtain rfl := Option.some.inj hs
    exact Grows.of_eq rfl rfl
  · obtain rfl := Option.some.inj hs
    exact ⟨List.prefix_append _ _, Nat.le_refl _⟩
  · rename_i f rest hstack
    cases f with
    | tick i l =>
      simp only [State.ret] at hs
      split_ifs at hs
      · exact Grows.runTick hs
      · obtain rfl := Option.some.inj hs
        exact Grows.of_eq rfl rfl
    | uncaught | load | callback | exit | forked =>
      obtain rfl := Option.some.inj hs
      exact Grows.of_eq rfl rfl
  · obtain rfl := Option.some.inj hs
    exact grows_throws s _ _ _
  · obtain rfl := Option.some.inj hs
    exact Grows.of_eq rfl rfl
  · obtain rfl := Option.some.inj hs
    exact Grows.of_eq rfl rfl
  · cases hs

/-! ### Runs -/

def ticks : List (Action α) → ℕ
  | [] => 0
  | .tick :: as => ticks as + 1
  | _ :: as => ticks as

/-- A tick that begins with callbacks waiting calls one of them at least. -/
theorem ran_tick {s s' : State α} (h : Inv s) (hs : step s .tick = some s') :
    s.waiting = [] ∨ s'.ran.length = s.ran.length + 1 := by
  unfold step at hs
  split_ifs at hs with hover
  split at hs
  any_goals contradiction
  exact (h.tick ‹_› hs).2.imp And.left id

theorem length_scheduled {s : State α} (h : Inv s) :
    s.scheduled.length = s.ran.length + s.waiting.length := by
  rw [h.order, List.length_append]

/-- As many ticks as callbacks wait are enough for all of them. -/
theorem ran_of_ticks {s s' : State α} {bs : List (Action α)} (h : Inv s)
    (hapart : Along step (fun s a _ => Apart s a) s bs) (hs : run step s bs = some s') :
    Inv s' ∧ s.scheduled <+: s'.scheduled ∧
      min s.scheduled.length (s.ran.length + ticks bs) ≤ s'.ran.length := by
  induction bs generalizing s with
  | nil =>
    obtain rfl := Option.some.inj hs
    exact ⟨h, List.prefix_rfl, Nat.min_le_right _ _⟩
  | cons b bs ih =>
    obtain ⟨s₁, h₁, h₂⟩ := Option.bind_eq_some_iff.mp hs
    obtain ⟨hb, hbs⟩ := hapart s₁ h₁
    have hinv₁ := inv_step h hb h₁
    have hgrows := grows_step h₁
    obtain ⟨hinv, hprefix, hmin⟩ := ih hinv₁ hbs h₂
    have hlen := hgrows.scheduled.length_le
    have hran := hgrows.ran
    have htick : min s.scheduled.length (s.ran.length + ticks (b :: bs)) ≤
        min s₁.scheduled.length (s₁.ran.length + ticks bs) := by
      cases b with
      | tick =>
        have hsched := length_scheduled h
        have hone : ticks (.tick :: bs) = ticks bs + 1 := rfl
        rcases ran_tick h h₁ with hnil | hnext
        · rw [hnil, List.length_nil] at hsched
          omega
        · omega
      | call | nextTick _ | ret | throws _ | loopEnd | exit | fork =>
        change min _ (_ + ticks bs) ≤ _
        omega
    exact ⟨hinv, hgrows.scheduled.trans hprefix, Nat.le_trans htick hmin⟩

/-- Callbacks are called in their order and once each, and none is stranded. -/
structure Served (s : State α) : Prop where
  order : s.scheduled = s.ran ++ s.waiting
  wake : s.AtLoop → s.nextTickQueue ≠ [] → s.needTickCb = true ∧ s.tickSpinner = true
  next : s.AtLoop → ∀ callback rest, s.waiting = callback :: rest →
    ∃ s', step s .tick = some s' ∧ s'.ran = s.ran ++ [callback]
  all : ∀ bs s', run step s bs = some s' → Along step (fun s a _ => Apart s a) s bs →
    s.waiting.length ≤ ticks bs → s.scheduled <+: s'.ran
  stays : ∀ s', step s .loopEnd = some s' → s.ran = s.scheduled

theorem Inv.wake_atLoop {s : State α} (h : Inv s) (hloop : s.AtLoop)
    (hne : s.nextTickQueue ≠ []) : s.needTickCb = true ∧ s.tickSpinner = true := by
  have hneed : s.needTickCb = true := by
    apply h.wake
    rw [hloop.1]
    exact List.length_pos_of_ne_nil hne
  exact ⟨hneed, h.spinner.trans hneed⟩

theorem waiting_atLoop {s : State α} (hloop : s.AtLoop) : s.waiting = s.nextTickQueue := by
  rw [State.waiting, hloop.1]
  rfl

theorem Inv.next {s : State α} (h : Inv s) (hloop : s.AtLoop) {callback : α} {rest : List α}
    (hwait : s.waiting = callback :: rest) :
    ∃ s', step s .tick = some s' ∧ s'.ran = s.ran ++ [callback] := by
  have hqueue := (waiting_atLoop hloop).symm.trans hwait
  obtain ⟨hneed, -⟩ := h.wake_atLoop hloop (by rw [hqueue]; exact List.cons_ne_nil _ _)
  obtain ⟨hstack, hover⟩ := hloop
  unfold step State.tick State.runTick
  simp [hstack, hover, hneed, hqueue]

theorem Inv.stays {s s' : State α} (h : Inv s) (hs : step s .loopEnd = some s') :
    s.ran = s.scheduled := by
  have hloop : s.AtLoop ∧ s.tickSpinner ≠ true := by
    unfold step at hs
    split_ifs at hs with hover
    split at hs
    any_goals contradiction
    rename_i hstack
    unfold State.loopEnd at hs
    split_ifs at hs with hspin <;> exact ⟨⟨hstack, by simpa using hover⟩, hspin⟩
  obtain ⟨hloop, hspin⟩ := hloop
  have hnil : s.nextTickQueue = [] := by
    by_contra hne
    exact hspin (h.wake_atLoop hloop hne).2
  rw [h.order, waiting_atLoop hloop, hnil, List.append_nil]

/-- While no child is made by `fork` in the middle of a tick, every callback that is scheduled
before the event loop has ended is called in its turn, once, unless the process ends first. -/
theorem served_of_reach (s : State α) (h : Reach step Apart State.init s) : Served s := by
  have hinv : Inv s := h.invariant Inv.init fun _ _ _ hi ha hs => inv_step hi ha hs
  refine ⟨hinv.order, fun hloop hne => hinv.wake_atLoop hloop hne,
    fun hloop _ _ hwait => hinv.next hloop hwait, ?_, fun _ hs => hinv.stays hs⟩
  intro bs s' hrun hapart hticks
  obtain ⟨hinv', hprefix, hmin⟩ := ran_of_ticks hinv hapart hrun
  have hlen := length_scheduled hinv
  have hran : s'.ran <+: s'.scheduled := by
    rw [hinv'.order]
    exact List.prefix_append _ _
  exact List.prefix_of_prefix_length_le hprefix hran (by omega)

theorem served_of_reach_load : ∃ s : State ℕ, s.waiting = [0] ∧ s.AtLoop ∧ Served s := by
  let s₁ := (State.init : State ℕ).nextTick 0
  have h₁ : Reach step Apart State.init s₁ := .single ⟨.nextTick 0, nofun, rfl⟩
  have h₂ : Reach step Apart State.init (s₁.back []) := h₁.tail ⟨.ret, nofun, rfl⟩
  exact ⟨s₁.back [], rfl, ⟨rfl, rfl⟩, served_of_reach (s₁.back []) h₂⟩

/-- A child made in the middle of a tick calls again what its parent has called. -/
theorem fork_repeats : ∃ s : State ℕ, Reach step (fun _ _ => True) State.init s ∧
    s.scheduled = [0, 1] ∧ s.ran = [0, 0] := by
  have hrun : (run step State.init [.nextTick 0, .ret, .tick, .fork, .nextTick 1, .ret, .tick]).map
      (fun s : State ℕ => (s.scheduled, s.ran)) = some ([0, 1], [0, 0]) := by decide +kernel
  obtain ⟨s, hs, hs'⟩ := Option.map_eq_some_iff.mp hrun
  obtain ⟨hscheduled, hran⟩ := Prod.mk.inj hs'
  exact ⟨s, reach_of_run hs fun _ _ => trivial, hscheduled, hran⟩

/-- An `'exit'` listener schedules a callback, and the process ends. -/
theorem exit_listener_unserved : ¬ ∀ s : State ℕ, Reach step (fun _ _ => True) State.init s →
    s.fate = some .exited → s.ran = s.scheduled := by
  intro h
  have hrun : (run step State.init [.nextTick 0, .ret, .tick, .ret, .loopEnd, .nextTick 1, .ret]).map
      (fun s : State ℕ => (s.fate, s.ran, s.scheduled)) = some (some .exited, [0], [0, 1]) := by
    decide +kernel
  obtain ⟨s, hs, hs'⟩ := Option.map_eq_some_iff.mp hrun
  obtain ⟨hover, hs'⟩ := Prod.mk.inj hs'
  obtain ⟨hran, hscheduled⟩ := Prod.mk.inj hs'
  have hsame := h s (reach_of_run hs fun _ _ => trivial) hover
  rw [hran, hscheduled] at hsame
  exact absurd hsame (by decide)

end NodeJS.NextTick
