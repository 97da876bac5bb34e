import Mathlib.Data.Int.Notation
import Mathlib.Data.List.Basic
import NodeJS.Lib.Reach
import NodeJS.Lib.Registry

/-! `Stream.prototype.pipe` of `stream.js`: any number of sources that are piped into one
destination, and the events that are emitted on them, one within the other. -/
namespace NodeJS.Piping
open Lib

inductive Object
  | dest
  | source (n : ℕ)
  deriving DecidableEq, Repr

inductive Event
  | data
  | drain
  | «end»
  | close
  | error
  | pause
  | resume
  deriving DecidableEq, Repr

/-- The functions made by a call of `pipe`. -/
inductive Part
  | ondata
  /-- The rest of `ondata`, once `dest.write` has returned. -/
  | wrote
  | ondrain
  | onend
  | onclose
  | onerror
  | onpause
  | onresume
  | cleanup
  deriving DecidableEq, Repr

inductive Handler
  | user (n : ℕ)
  /-- A function of the call with this number. -/
  | pipe (p : ℕ) (part : Part)
  deriving DecidableEq, Repr

/-- What a call of `pipe` has in its scope, and whether its `cleanup` has run. -/
structure Pipe where
  source : ℕ
  /-- `!options || options.end !== false` -/
  endOption : Bool
  didOnEnd : Bool
  cleanedUp : Bool
  deriving DecidableEq, Repr

/-- A method of a stream that a handler calls. -/
inductive Call
  | write
  | pause (n : ℕ)
  | resume (n : ℕ)
  | «end»
  | destroy
  deriving DecidableEq, Repr

/-- Where a listener stands. -/
structure Key where
  object : Object
  event : Event
  deriving DecidableEq, Repr

/-- An `emit` that is going on, with the listeners that it has not yet called. -/
structure Frame where
  key : Key
  rest : List Handler
  deriving DecidableEq

structure State where
  pipes : List Pipe
  listeners : Key → List Handler
  /-- `dest._pipeCount` -/
  pipeCount : ℤ
  calls : List Call
  /-- Empty while no event is emitted. -/
  stack : List Frame

/-- Two streams and more that nobody listens to. -/
def fresh : State := ⟨[], fun _ => [], 0, [], []⟩

/-- The listeners that `pipe` adds before `onerror`. -/
def endings (p source : ℕ) : List (Key × Handler) :=
  [(⟨.source source, .end⟩, .pipe p .onend), (⟨.source source, .close⟩, .pipe p .onclose)]

/-- The listeners that `pipe` adds, in order. -/
def added (p source : ℕ) (endOption : Bool) : List (Key × Handler) :=
  [(⟨.source source, .data⟩, .pipe p .ondata), (⟨.dest, .drain⟩, .pipe p .ondrain)] ++
  (if endOption then endings p source else []) ++
  [(⟨.source source, .error⟩, .pipe p .onerror), (⟨.dest, .error⟩, .pipe p .onerror),
    (⟨.dest, .pause⟩, .pipe p .onpause), (⟨.dest, .resume⟩, .pipe p .onresume),
    (⟨.source source, .end⟩, .pipe p .cleanup), (⟨.source source, .close⟩, .pipe p .cleanup),
    (⟨.dest, .end⟩, .pipe p .cleanup), (⟨.dest, .close⟩, .pipe p .cleanup)]

/-- The listeners that `cleanup` removes, in order. -/
def removed (p source : ℕ) : List (Key × Handler) :=
  [(⟨.source source, .data⟩, .pipe p .ondata), (⟨.dest, .drain⟩, .pipe p .ondrain),
    (⟨.source source, .end⟩, .pipe p .onend), (⟨.source source, .close⟩, .pipe p .onclose),
    (⟨.dest, .pause⟩, .pipe p .onpause), (⟨.dest, .resume⟩, .pipe p .onresume),
    (⟨.source source, .error⟩, .pipe p .onerror), (⟨.dest, .error⟩, .pipe p .onerror),
    (⟨.source source, .end⟩, .pipe p .cleanup), (⟨.source source, .close⟩, .pipe p .cleanup),
    (⟨.dest, .end⟩, .pipe p .cleanup), (⟨.dest, .close⟩, .pipe p .cleanup)]

def pipe (s : State) (source : ℕ) (endOption : Bool) : State := { s with
  pipes := s.pipes ++ [⟨source, endOption, false, false⟩]
  listeners := Registry.onAll s.listeners (added s.pipes.length source endOption)
  pipeCount := if endOption then s.pipeCount + 1 else s.pipeCount }

def State.call (s : State) (c : Call) : State := { s with calls := s.calls ++ [c] }

def cleanup (s : State) (p : ℕ) (pipe : Pipe) : State := { s with
  pipes := s.pipes.set p { pipe with cleanedUp := true }
  listeners := Registry.offAll s.listeners (removed p pipe.source) }

/-- `onend` and `onclose`, which differ in what they call. -/
def finish (s : State) (p : ℕ) (pipe : Pipe) (last : Call) : State :=
  if pipe.didOnEnd then s
  else
    let pipe := { pipe with didOnEnd := true }
    let s := { s with pipeCount := s.pipeCount - 1 }
    let s := cleanup s p pipe
    if s.pipeCount > 0 then s else s.call last

def onend (s : State) (p : ℕ) (pipe : Pipe) : State := finish s p pipe .end

def onclose (s : State) (p : ℕ) (pipe : Pipe) : State := finish s p pipe .destroy

/-- An exception leaves the `emit` on top. -/
def State.throw (s : State) : State := { s with stack := s.stack.tail }

/-- `this` is the stream that emits the error. -/
def onerror (s : State) (p : ℕ) (pipe : Pipe) (this : Object) : State :=
  let s := cleanup s p pipe
  if (s.listeners ⟨this, .error⟩).length = 0 then s.throw else s

/-- A function of the call `p`, called by the `emit` on top. The flag is what it reads: `writable`
of the destination, `readable` of the source, or whether `dest.write` returned false. -/
def runPart (s : State) (this : Object) (p : ℕ) (pipe : Pipe) (flag : Bool) : Part → State
  | .ondata =>
    if flag then
      let s := s.call .write
      match s.stack with
      | [] => s
      | f :: stack => { s with stack := { f with rest := .pipe p .wrote :: f.rest } :: stack }
    else s
  | .wrote => if flag then s.call (.pause pipe.source) else s
  | .ondrain => if flag then s.call (.resume pipe.source) else s
  | .onend => onend s p pipe
  | .onclose => onclose s p pipe
  | .onerror => onerror s p pipe this
  | .onpause => s.call (.pause pipe.source)
  | .onresume => if flag then s.call (.resume pipe.source) else s
  | .cleanup => cleanup s p pipe

def runHandler (s : State) (this : Object) (flag : Bool) : Handler → State
  | .user _ => s
  | .pipe p part =>
    match s.pipes[p]? with
    | none => s
    | some pipe => runPart s this p pipe flag part

/-- A listener and the methods of the streams may do any of these but the last three. -/
inductive Action
  | pipe (source : ℕ) (endOption : Bool)
  | on (key : Key) (n : ℕ)
  | removeListener (key : Key) (n : ℕ)
  | emit (key : Key)
  /-- The `emit` on top calls its next listener. -/
  | call (flag : Bool)
  /-- It has called all of them. -/
  | ret
  /-- What it has called throws. -/
  | throw
  deriving DecidableEq, Repr

def step (s : State) : Action → Option State
  | .pipe source endOption => some (pipe s source endOption)
  | .on key n => some { s with listeners := Registry.on s.listeners (key, .user n) }
  | .removeListener key n => some { s with listeners := Registry.off s.listeners (key, .user n) }
  | .emit key => some { s with stack := ⟨key, s.listeners key⟩ :: s.stack }
  | .call flag =>
    match s.stack with
    | ⟨key, h :: rest⟩ :: stack =>
      some (runHandler { s with stack := ⟨key, rest⟩ :: stack } key.object flag h)
    | _ => none
  | .ret =>
    match s.stack with
    | ⟨_, []⟩ :: stack => some { s with stack := stack }
    | _ => none
  | .throw => if s.stack = [] then none else some s.throw

end NodeJS.Piping
