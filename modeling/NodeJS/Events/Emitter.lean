import NodeJS.Buffer.Text
import NodeJS.Lib.Reach
import Mathlib.Logic.Function.Basic

/-! `EventEmitter`: its methods, and the calls that are going on while listeners run. What the
methods do with `_events` is kept apart from how control moves between them. -/
namespace NodeJS.Events

/-- A function. A wrapper made by `once` has a number and holds on to what it was made of. -/
inductive Fn
  | user (n : ℕ)
  /-- A function of `Object.prototype`. -/
  | builtin (name : JSString)
  | once (k : ℕ) (type : JSString) (listener : Fn)
  deriving DecidableEq

/-- A function among the handlers, with the number of the call that put it there. -/
structure Entry where
  fn : Fn
  call : Option ℕ
  deriving DecidableEq

inductive Item
  | fn (e : Entry)
  /-- A number or an object, which has no `apply`. -/
  | other
  deriving DecidableEq

inductive Plan
  /-- An `'error'` event that nobody handles. -/
  | throws
  /-- Return false. -/
  | skip
  /-- Call them one after the other, then return true. -/
  | call (listeners : List Item)

/-- The parts of the methods that read and write the handlers. -/
structure Handlers (σ : Type) where
  create : σ → σ
  plan : σ → JSString → Plan
  push : σ → JSString → Entry → σ
  removeListener : σ → JSString → Fn → σ
  removeAllListeners : σ → JSString → σ
  listeners : σ → JSString → σ × List Item
  setMaxListeners : σ → ℕ → σ

/-! ### Control -/

inductive Frame
  /-- A function of the program. -/
  | body
  /-- An `emit` that has called some of its listeners. -/
  | emit (type : JSString) (called : List Entry) (pending : List Item)
  /-- An `addListener` that emits `'newListener'`. -/
  | add (type : JSString) (e : Entry)
  deriving DecidableEq

inductive Event
  | registered (type : JSString) (e : Entry)
  | invoked (type : JSString) (e : Entry)
  | reported (type : JSString) (listeners : List Item)
  deriving DecidableEq

structure Result where
  type : JSString
  called : List Entry
  returned : Bool
  deriving DecidableEq

structure State (σ : Type) where
  handlers : σ
  /-- The number of calls of `addListener` and `once`. -/
  calls : ℕ
  /-- The wrappers made by `once`. -/
  made : List Fn
  /-- Empty while the program is not in any listener. -/
  stack : List Frame
  log : List Event
  results : List Result

inductive Call
  | addListener (type : JSString) (listener : Fn)
  | once (type : JSString) (listener : Fn)
  | removeListener (type : JSString) (listener : Fn)
  | removeAllListeners (type : JSString)
  | listeners (type : JSString)
  | emit (type : JSString)
  | setMaxListeners (n : ℕ)
  deriving DecidableEq

/-- The program calls a method, or the listener on top returns or throws. -/
inductive Action
  | call (c : Call)
  | ret
  | throws
  deriving DecidableEq

def State.init {σ : Type} (handlers : σ) : State σ := ⟨handlers, 0, [], [], [], []⟩

/-- Where an exception arrives: the function of the program that made the call. -/
def unwind : List Frame → List Frame
  | [] => []
  | .body :: rest => .body :: rest
  | .emit _ _ _ :: rest => unwind rest
  | .add _ _ :: rest => unwind rest

theorem mem_of_unwind {f : Frame} : ∀ {stack : List Frame}, f ∈ unwind stack → f ∈ stack
  | [], h => h
  | .body :: _, h => h
  | .emit _ _ _ :: _, h => List.mem_cons_of_mem _ (mem_of_unwind h)
  | .add _ _ :: _, h => List.mem_cons_of_mem _ (mem_of_unwind h)

section
variable {σ : Type} (H : Handlers σ)

/-- A wrapper removes itself, then calls its listener, which may be a wrapper in turn. -/
def unwrap : σ → Fn → σ
  | h, .once k type listener =>
    unwrap (H.removeListener h type (.once k type listener)) listener
  | h, .user _ => h
  | h, .builtin _ => h

/-- An `emit` returns to `rest`. -/
def finish (s : State σ) : List Frame → State σ
  | .add type e :: rest => { s with
      handlers := H.push s.handlers type e, stack := rest, log := s.log ++ [.registered type e] }
  | rest => { s with stack := rest }

/-- The loop of `emit` over the listeners that are left. -/
def proceed (s : State σ) (type : JSString) (called : List Entry) (rest : List Frame) :
    List Item → State σ
  | [] => finish H { s with results := s.results ++ [⟨type, called, true⟩] } rest
  | .fn e :: pending => { s with
      handlers := unwrap H s.handlers e.fn
      stack := .body :: .emit type (called ++ [e]) pending :: rest
      log := s.log ++ [.invoked type e] }
  | .other :: _ => { s with stack := unwind rest }

/-- `emit`, called from `rest`. -/
def emit (s : State σ) (type : JSString) (rest : List Frame) : State σ :=
  match H.plan s.handlers type with
  | .throws => { s with stack := unwind rest }
  | .skip => finish H { s with results := s.results ++ [⟨type, [], false⟩] } rest
  | .call listeners => proceed H s type [] rest listeners

def addListener (s : State σ) (type : JSString) (e : Entry) : State σ :=
  emit H { s with handlers := H.create s.handlers, calls := s.calls + 1 } (js "newListener")
    (.add type e :: s.stack)

def perform (s : State σ) : Call → State σ
  | .addListener type listener => addListener H s type ⟨listener, some s.calls⟩
  | .once type listener =>
    let g := Fn.once s.calls type listener
    addListener H { s with made := s.made ++ [g] } type ⟨g, some s.calls⟩
  | .removeListener type listener =>
    { s with handlers := H.removeListener s.handlers type listener }
  | .removeAllListeners type => { s with handlers := H.removeAllListeners s.handlers type }
  | .listeners type =>
    let (handlers, listeners) := H.listeners s.handlers type
    { s with handlers := handlers, log := s.log ++ [.reported type listeners] }
  | .emit type => emit H s type s.stack
  | .setMaxListeners n => { s with handlers := H.setMaxListeners s.handlers n }

/-- A wrapper can be passed once there is one. -/
def Fn.Exists (made : List Fn) : Fn → Prop
  | .once k type listener => .once k type listener ∈ made
  | _ => True

instance (made : List Fn) : DecidablePred (Fn.Exists made)
  | .once _ _ _ => inferInstanceAs (Decidable (_ ∈ _))
  | .user _ => inferInstanceAs (Decidable True)
  | .builtin _ => inferInstanceAs (Decidable True)

/-- The function passed to a call is there. A name that would make the call assign to
`__proto__` is left out. -/
def Call.Valid (made : List Fn) : Call → Prop
  | .addListener type listener => listener.Exists made ∧ type ≠ js "__proto__"
  | .once type listener => listener.Exists made ∧ type ≠ js "__proto__"
  | .removeListener _ listener => listener.Exists made
  | .removeAllListeners type => type ≠ js "__proto__"
  | .listeners type => type ≠ js "__proto__"
  | .emit _ => True
  | .setMaxListeners _ => True

instance (made : List Fn) : DecidablePred (Call.Valid made) := by
  intro c
  cases c <;> unfold Call.Valid <;> infer_instance

def step (s : State σ) : Action → Option (State σ)
  | .call c =>
    match s.stack with
    | [] => if c.Valid s.made then some (perform H s c) else none
    | .body :: _ => if c.Valid s.made then some (perform H s c) else none
    | _ => none
  | .ret =>
    match s.stack with
    | .body :: .emit type called pending :: rest => some (proceed H s type called rest pending)
    | _ => none
  | .throws =>
    match s.stack with
    | .body :: rest => some { s with stack := unwind rest }
    | _ => none

theorem finish_results (s : State σ) (rest : List Frame) :
    (finish H s rest).results = s.results := by
  cases rest with
  | nil => rfl
  | cons f rest => cases f <;> rfl

/-- What a step can be. -/
theorem step_cases {s s' : State σ} {a : Action} (h : step H s a = some s') :
    (∃ c, a = .call c ∧ c.Valid s.made ∧ s' = perform H s c) ∨
      (∃ type called pending rest, a = .ret ∧
        s.stack = .body :: .emit type called pending :: rest ∧
        s' = proceed H s type called rest pending) ∨
      ∃ rest, a = .throws ∧ s.stack = .body :: rest ∧ s' = { s with stack := unwind rest } := by
  unfold step at h
  cases a with
  | call c =>
    dsimp only at h
    split at h
    · split_ifs at h with hvalid
      exact .inl ⟨c, rfl, hvalid, (Option.some.inj h).symm⟩
    · split_ifs at h with hvalid
      exact .inl ⟨c, rfl, hvalid, (Option.some.inj h).symm⟩
    · cases h
  | ret =>
    dsimp only at h
    split at h
    · rename_i type called pending rest hstack
      exact .inr (.inl ⟨type, called, pending, rest, rfl, hstack, (Option.some.inj h).symm⟩)
    · cases h
  | throws =>
    dsimp only at h
    split at h
    · rename_i rest hstack
      exact .inr (.inr ⟨rest, rfl, hstack, (Option.some.inj h).symm⟩)
    · cases h

end

/-! ### The object `_events` -/

inductive Value
  | null
  | fn (e : Entry)
  | array (l : List Item)
  | number (n : ℕ)
  | object
  deriving DecidableEq

def prototypeFunctions : List JSString :=
  [js "constructor", js "toString", js "toLocaleString", js "valueOf", js "hasOwnProperty",
    js "isPrototypeOf", js "propertyIsEnumerable", js "__defineGetter__", js "__lookupGetter__",
    js "__defineSetter__", js "__lookupSetter__"]

/-- The properties every object inherits. -/
def inherited (name : JSString) : Option Value :=
  if prototypeFunctions.contains name then some (.fn ⟨.builtin name, none⟩)
  else if name = js "__proto__" then some .object
  else none

/-- The own properties of `_events`; `none` while that is undefined. -/
abbrev Object := Option (JSString → Option Value)

def Object.own (o : Object) : JSString → Option Value := o.getD fun _ => none

/-- `this._events[name]` -/
def Object.get (o : Object) (name : JSString) : Option Value :=
  match o with
  | none => none
  | some own => (own name).or (inherited name)

def Object.set (o : Object) (name : JSString) (v : Option Value) : Object :=
  some (Function.update o.own name v)

/-- Whether `!value` is false. -/
def truthy : Option Value → Bool
  | none => false
  | some .null => false
  | some (.number n) => n ≠ 0
  | some _ => true

def Value.item : Value → Item
  | .fn e => .fn e
  | _ => .other

/-- `f.listener` of a function of the program is given by `field`. -/
def Fn.listener (field : ℕ → Option Fn) : Fn → Option Fn
  | .user n => field n
  | .builtin _ => none
  | .once _ _ listener => some listener

/-- `f === listener || (f.listener && f.listener === listener)` -/
def Entry.matchesFn (field : ℕ → Option Fn) (listener : Fn) (e : Entry) : Bool :=
  e.fn = listener ∨ e.fn.listener field = some listener

def Item.matchesFn (field : ℕ → Option Fn) (listener : Fn) : Item → Bool
  | .fn e => e.matchesFn field listener
  | .other => false

namespace Object

def create (o : Object) : Object := some o.own

/-- The decisions of `emit`. -/
def plan (o : Object) (type : JSString) : Plan :=
  if type = js "error" ∧ (truthy (o.get type) = false ∨ o.get type = some (.array [])) then .throws
  else if truthy (o.get type) = false then .skip
  else match o.get type with
    | some (.fn e) => .call [.fn e]
    | some (.array l) => .call l
    | _ => .skip

/-- What `addListener` does after `'newListener'` was emitted. -/
def push (o : Object) (type : JSString) (e : Entry) : Object :=
  if truthy (o.get type) = false then o.set type (some (.fn e))
  else match o.get type with
    | some (.array l) => o.set type (some (.array (l ++ [.fn e])))
    | some v => o.set type (some (.array [v.item, .fn e]))
    | none => o

def removeListener (field : ℕ → Option Fn) (o : Object) (type : JSString) (listener : Fn) :
    Object :=
  if truthy (o.get type) = false then o
  else match o.get type with
    | some (.array list) =>
      match list.findIdx? (Item.matchesFn field listener) with
      | none => o
      | some position =>
        let list := list.eraseIdx position
        o.set type (if list.length = 0 then none else some (.array list))
    | some v => if v.item.matchesFn field listener then o.set type none else o
    | none => o

def removeAllListeners (o : Object) (type : JSString) : Object :=
  if type ≠ [] ∧ truthy (o.get type) then o.set type (some .null) else o

def listeners (o : Object) (type : JSString) : Object × List Item :=
  let o := o.create
  match o.get type with
  | some (.array l) => (o, l)
  | some v =>
    let l := if truthy (some v) then [v.item] else []
    (o.set type (some (.array l)), l)
  | none => (o.set type (some (.array [])), [])

def setMaxListeners (o : Object) (n : ℕ) : Object := o.set (js "maxListeners") (some (.number n))

end Object

def objectHandlers (field : ℕ → Option Fn) : Handlers Object where
  create := Object.create
  plan := Object.plan
  push := Object.push
  removeListener := Object.removeListener field
  removeAllListeners := Object.removeAllListeners
  listeners := Object.listeners
  setMaxListeners := Object.setMaxListeners

def State.new : State Object := State.init none

end NodeJS.Events
