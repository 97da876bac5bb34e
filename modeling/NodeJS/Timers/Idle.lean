import NodeJS.Timers.LinkList
import Mathlib.Algebra.Order.Ring.Rat

/-! `timers.js`: idle timeouts. Items with the same timeout share one list and one libev
timer. A list callback that has called an `_onTimeout` handler is suspended until the handler
returns; handlers are user code and may call every function of the module. -/
namespace NodeJS.Timers
open Lib

/-- Objects that carry `_idleNext` and `_idlePrev`. Lists are created once for each number of
milliseconds and never dropped, so the number names the list. -/
inductive Node
  | list (msecs : ℚ)
  | item (id : ℕ)
  deriving DecidableEq

/-- The libev watcher of a `Timer`. -/
structure Timer where
  active : Bool
  repeatTime : ℚ

def Timer.new : Timer := ⟨false, 0⟩

def Timer.start (_ : Timer) (repeatTime : ℚ) : Timer := ⟨true, repeatTime⟩

def Timer.stop (t : Timer) : Timer := { t with active := false }

/-- `Timer::Again`, which sets only a positive repeat time, followed by `ev_timer_again`, which
stops a watcher whose repeat time is zero and does not start it. -/
def Timer.again (t : Timer) (msecs : ℚ) : Timer :=
  let t := if msecs > 0 then { t with repeatTime := msecs } else t
  { t with active := t.repeatTime ≠ 0 }

/-- `timers_reify`: before its callback a watcher without a repeat time is stopped. -/
def Timer.fire (t : Timer) : Timer := if t.repeatTime = 0 then t.stop else t

/-- The fields of an object that takes part in idle timeouts, other than its links. `timer` is
there for the objects that `setTimeout` makes out of a `Timer`. -/
structure Item where
  idleTimeout : Option ℚ
  idleStart : ℚ
  onTimeout : Bool
  callback : Bool
  timer : Option Timer

/-- Where a running list callback is: at the head of its loop, or inside a handler. -/
inductive Phase
  | loop
  | handler
  deriving DecidableEq

structure State where
  links : Links Node
  lists : ℚ → Option Timer
  items : ℕ → Option Item
  running : Option (ℚ × ℚ × Phase)

def State.initial : State where
  links := ⟨fun _ => none, fun _ => none⟩
  lists _ := none
  items _ := none
  running := none

def State.setList (s : State) (msecs : ℚ) (t : Timer) : State :=
  { s with lists := Function.update s.lists msecs (some t) }

def State.setItem (s : State) (id : ℕ) (it : Item) : State :=
  { s with items := Function.update s.items id (some it) }

def State.listOf (s : State) (msecs : Option ℚ) : Option (ℚ × Timer) := do
  let m ← msecs
  let t ← s.lists m
  return (m, t)

def insert (s : State) (id : ℕ) (it : Item) (msecs now : ℚ) : State :=
  let s := s.setItem id { it with idleStart := now, idleTimeout := some msecs }
  if msecs < 0 then s else
  let (s, list) := match s.lists msecs with
    | some list => (s, list)
    | none =>
      let s := { s with links := LinkList.init s.links (.list msecs) }
      (s.setList msecs .new, .new)
  let s := if LinkList.isEmpty s.links (.list msecs) then s.setList msecs (list.again msecs) else s
  { s with links := LinkList.append s.links (.list msecs) (.item id) }

def unenroll (s : State) (id : ℕ) (it : Item) : State :=
  let s := { s with links := LinkList.remove s.links (.item id) }
  match s.listOf it.idleTimeout with
  | some (msecs, list) =>
    if LinkList.isEmpty s.links (.list msecs) then s.setList msecs list.stop else s
  | none => s

def enroll (s : State) (id : ℕ) (it : Item) (msecs : Option ℚ) : State :=
  let s := if (s.links.next (.item id)).isSome then unenroll s id it else s
  let s := s.setItem id { it with idleTimeout := msecs }
  { s with links := LinkList.init s.links (.item id) }

/-- `active`. Where the list is missing `L.append` throws after its `remove`. -/
def active (s : State) (id : ℕ) (it : Item) (now : ℚ) : State :=
  match it.idleTimeout with
  | none => s
  | some msecs =>
    if msecs < 0 then s
    else if s.links.next (.item id) = some (.item id) then insert s id it msecs now
    else
      let s := s.setItem id { it with idleStart := now }
      match s.lists msecs with
      | some _ => { s with links := LinkList.append s.links (.list msecs) (.item id) }
      | none => { s with links := LinkList.remove s.links (.item id) }

/-- `setTimeout`, on the new object `id`. -/
def setTimeout (s : State) (id : ℕ) (callback : Bool) (after : Option ℚ) (now : ℚ) : State :=
  if after.any (· ≤ 0) then
    s.setItem id ⟨none, 0, false, callback, some (Timer.new.start 0)⟩
  else
    let it : Item := ⟨after, 0, callback, false, none⟩
    let s := s.setItem id it
    let s := { s with links := LinkList.init s.links (.item id) }
    active s id it now

def clearTimeout (s : State) (id : ℕ) (it : Item) : State :=
  if it.callback || it.onTimeout then
    let it := { it with callback := false, onTimeout := false }
    let s := s.setItem id it
    let s := unenroll s id it
    s.setItem id { it with timer := it.timer.map Timer.stop }
  else s

def callbackRound (s : State) (msecs now : ℚ) (list : Timer) : State :=
  match LinkList.peek s.links (.list msecs) with
  | some (.item id) =>
    match s.items id with
    | some first =>
      let diff := now - first.idleStart
      if diff + 1 < msecs then
        { s.setList msecs (list.again (msecs - diff)) with running := none }
      else
        let s := { s with links := LinkList.remove s.links (.item id) }
        { s with running := some (msecs, now, if first.onTimeout then .handler else .loop) }
    | none => s
  | _ => { s.setList msecs list.stop with running := none }

/-- What the program and the event loop can do next. -/
inductive Action
  | create (id : ℕ) (onTimeout : Bool)
  | enroll (id : ℕ) (msecs : Option ℚ)
  | active (id : ℕ) (now : ℚ)
  | unenroll (id : ℕ)
  | setTimeout (id : ℕ) (callback : Bool) (after : Option ℚ) (now : ℚ)
  | clearTimeout (id : ℕ)
  | fire (msecs now : ℚ)
  | round
  | handlerReturns
  | handlerThrows

/-- User code runs outside of list callbacks and inside of handlers. -/
def State.inUserCode (s : State) : Bool :=
  match s.running with
  | none => true
  | some (_, _, .handler) => true
  | some (_, _, .loop) => false

def State.call (s : State) (id : ℕ) (f : Item → State) : Option State :=
  if s.inUserCode then (s.items id).map f else none

def step (s : State) : Action → Option State
  | .create id onTimeout =>
    if s.inUserCode && (s.items id).isNone then
      some (s.setItem id ⟨none, 0, onTimeout, false, none⟩)
    else none
  | .enroll id msecs => s.call id fun it => enroll s id it msecs
  | .active id now => s.call id fun it => active s id it now
  | .unenroll id => s.call id fun it => unenroll s id it
  | .setTimeout id callback after now =>
    if s.inUserCode && (s.items id).isNone then some (setTimeout s id callback after now) else none
  | .clearTimeout id => s.call id fun it => clearTimeout s id it
  | .fire msecs now =>
    match s.running, s.lists msecs with
    | none, some list =>
      if list.active then
        some { s.setList msecs list.fire with running := some (msecs, now, .loop) }
      else none
    | _, _ => none
  | .round =>
    match s.running with
    | some (msecs, now, .loop) => (s.lists msecs).map fun list => callbackRound s msecs now list
    | _ => none
  | .handlerReturns =>
    match s.running with
    | some (msecs, now, .handler) => some { s with running := some (msecs, now, .loop) }
    | _ => none
  | .handlerThrows =>
    match s.running with
    | some (_, _, .handler) => some { s with running := none }
    | _ => none

end NodeJS.Timers
