import NodeJS.Events.Items
import NodeJS.Events.Once

/-! The signals of `process`: listeners, and the watchers that `node.js` starts and stops for
them. -/
namespace NodeJS.Process
open NodeJS.Events Lib

/-- `process._events`, the watchers in `signalWatchers`, each with whether it is started, and
whether the last call has thrown. -/
structure Signals where
  events : Object
  watchers : JSString → Option Bool
  thrown : Bool

section
variable (constants : JSString → ℕ) (asserts : Bool) (field : ℕ → Option Fn)

/-- `isSignal`, where a name without a constant has 0. -/
def isSignal (event : JSString) : Bool := event.take 3 = js "SIG" ∧ constants event ≠ 0

namespace Signals
variable (p : Signals) (type : JSString)

def start : Signals := { p with watchers := Function.update p.watchers type (some true) }

def stop : Signals := { p with watchers := Function.update p.watchers type (some false) }

def listeners : Signals × List Item :=
  let (events, l) := p.events.listeners type
  ({ p with events := events }, l)

/-- `process.addListener`, after `'newListener'` was emitted. -/
def push (e : Entry) : Signals :=
  let p := { p with events := p.events.push type e }
  if isSignal constants type then
    match p.watchers type with
    | none => p.start type
    | some _ =>
      let (p, l) := p.listeners type
      if l.length = 1 then p.start type else p
  else p

/-- `process.removeListener`. Without a watcher the assertion throws, in a build that has it, or
else `stop` is read of `undefined`. After an exception, nothing more is removed. -/
def removeListener (listener : Fn) : Signals :=
  if p.thrown then p
  else
    let p := { p with events := p.events.removeListener field type listener }
    if isSignal constants type then
      match p.watchers type with
      | none =>
        if asserts then { p with thrown := true }
        else
          let (p, l) := p.listeners type
          if l.length = 0 then { p with thrown := true } else p
      | some _ =>
        let (p, l) := p.listeners type
        if l.length = 0 then p.stop type else p
    else p

end Signals

/-- The methods of `process`, of which `removeAllListeners` is not wrapped. -/
def processHandlers : Handlers Signals where
  create p := { p with events := p.events.create }
  plan p := p.events.plan
  push p type := p.push constants type
  removeListener p type := p.removeListener constants asserts field type
  removeAllListeners p type := { p with events := p.events.removeAllListeners type }
  listeners p := p.listeners
  setMaxListeners p n := { p with events := p.events.setMaxListeners n }

inductive Act
  | program (a : Action)
  | deliver (type : JSString)

/-- An exception in a wrapper of `once` ends the `emit` that has called it. -/
def settle (s : State Signals) : State Signals :=
  if s.handlers.thrown then { s with stack := unwind s.stack.tail } else s

def step (s : State Signals) (a : Act) : Option (State Signals) :=
  let H := processHandlers constants asserts field
  let s := { s with handlers := { s.handlers with thrown := false } }
  match a with
  | .program (.call (.removeListener type listener)) =>
    Events.step H s (.call (.removeListener type listener))
  | .program a => (Events.step H s a).map settle
  | .deliver type =>
    if s.stack = [] ∧ isSignal constants type ∧ s.handlers.watchers type = some true then
      some (settle (Events.emit H s type []))
    else none

/-- `process` when it starts. -/
def new : State Signals := State.init ⟨none, fun _ => none, false⟩

/-- A watcher is started exactly when its signal has a listener, and no call has thrown. -/
structure Watched (p : Signals) : Prop where
  started : ∀ type, isSignal constants type = true →
    (p.watchers type = some true ↔ p.events.items type ≠ [])
  returned : p.thrown = false

/-- No wrapper of `once` in this function is for a signal that never had a listener. -/
def Guarded (watchers : JSString → Option Bool) : Fn → Prop
  | .once _ type listener =>
    (isSignal constants type = true → watchers type ≠ none) ∧ Guarded watchers listener
  | _ => True

/-- The same of the function that is called next, if one is. -/
def GuardedFirst (watchers : JSString → Option Bool) (first : Option Item) : Prop :=
  ∀ e, first = some (.fn e) → Guarded constants watchers e.fn

/-- A signal that never had a listener has none removed, by the program or by a wrapper of `once`
that is called, and one that has listeners does not have them all removed at once. -/
def Permitted (s : State Signals) : Act → Prop
  | .program (.call (.removeListener type _)) =>
    isSignal constants type = true → s.handlers.watchers type ≠ none
  | .program (.call (.removeAllListeners type)) =>
    isSignal constants type = true → s.handlers.events.items type = []
  | .program (.call (.emit type)) | .deliver type =>
    GuardedFirst constants s.handlers.watchers (s.handlers.events.plan type).first
  | .program (.call (.addListener _ _)) | .program (.call (.once _ _)) =>
    GuardedFirst constants s.handlers.watchers
      (s.handlers.events.plan (js "newListener")).first
  | .program .ret => match s.stack with
    | .body :: .emit _ _ pending :: _ =>
      GuardedFirst constants s.handlers.watchers pending.head?
    | _ => True
  | _ => True

end

section
variable {constants : JSString → ℕ} {asserts : Bool} {field : ℕ → Option Fn} {p : Signals}
  {type n : JSString}

theorem inherited_of_isSignal (h : isSignal constants type = true) : inherited type = none := by
  obtain ⟨htake, -⟩ := of_decide_eq_true h
  have hproto : type ≠ js "__proto__" := by
    rintro rfl
    exact absurd htake (by decide +kernel)
  have hfunctions : ¬ prototypeFunctions.contains type = true := by
    intro hmem
    have hall : ∀ name ∈ prototypeFunctions, name.take 3 ≠ js "SIG" := by decide +kernel
    exact hall type (List.contains_iff_mem.mp hmem) htake
  unfold inherited
  rw [if_neg hfunctions, if_neg hproto]

theorem elements_get_signal (h : isSignal constants type = true) (o : Object) :
    elements (o.get type) = o.items type :=
  o.elements_get (by rw [inherited_of_isSignal h]; rfl)

/-- What `this.listeners` returns, and that it changes no list. -/
theorem listeners_signal (h : isSignal constants type = true) :
    (p.listeners type).2 = p.events.items type := by
  show (p.events.listeners type).2 = _
  rw [(p.events.listeners_eq type).1, elements_get_signal h, Object.items_create]

theorem items_listeners_signal (h : isSignal constants n = true) :
    (p.listeners type).1.events.items n = p.events.items n := by
  show (p.events.listeners type).1.items n = _
  rw [Object.items_listeners]
  split_ifs with hn
  · rw [← hn, elements_get_signal h, Object.items_create]
  · rfl

/-! ### The methods -/

/-- Other events and other watchers do not count. -/
theorem Watched.congr {p' : Signals} (h : Watched constants p)
    (hitems : ∀ n, isSignal constants n = true → p'.events.items n = p.events.items n)
    (hwatchers : p'.watchers = p.watchers) (hthrown : p'.thrown = p.thrown) :
    Watched constants p' := by
  refine ⟨fun n hn => ?_, hthrown.trans h.returned⟩
  rw [hwatchers, hitems n hn]
  exact h.started n hn

theorem Watched.listeners (h : Watched constants p) (type : JSString) :
    Watched constants (p.listeners type).1 :=
  h.congr (fun _ hn => items_listeners_signal hn) rfl rfl

theorem Watched.no_items (h : Watched constants p) (htype : isSignal constants type = true)
    (hnone : p.watchers type = none) : p.events.items type = [] := by
  by_contra hitems
  exact absurd (hnone.symm.trans ((h.started type htype).mpr hitems)) nofun

/-- The listeners of one signal have changed, and its watcher with them. -/
structure Changed (constants : JSString → ℕ) (p : Signals) (type : JSString) (q : Signals) :
    Prop where
  items : ∀ n, isSignal constants n = true → n ≠ type → q.events.items n = p.events.items n
  watchers : q.watchers = p.watchers
  thrown : q.thrown = p.thrown

theorem Changed.listeners {q : Signals} (h : Changed constants p type q) :
    Changed constants p type (q.listeners type).1 :=
  ⟨fun n hn hne => (items_listeners_signal hn).trans (h.items n hn hne), h.watchers, h.thrown⟩

/-- The watcher is started or stopped as the listeners are there. -/
theorem Watched.set {q : Signals} (h : Watched constants p) (hq : Changed constants p type q)
    (b : Bool) (hb : b = true ↔ q.events.items type ≠ []) :
    Watched constants { q with watchers := Function.update q.watchers type (some b) } := by
  refine ⟨fun n hn => ?_, hq.thrown.trans h.returned⟩
  dsimp only
  by_cases hsame : n = type
  · rw [hsame, Function.update_self, Option.some_inj]
    exact hb
  · rw [Function.update_of_ne hsame, hq.watchers, hq.items n hn hsame]
    exact h.started n hn

/-- The watcher of a signal that has listeners before and after goes on. -/
theorem Watched.stay {q : Signals} (h : Watched constants p) (hq : Changed constants p type q)
    (hbefore : isSignal constants type = true → p.events.items type ≠ [])
    (hafter : isSignal constants type = true → q.events.items type ≠ []) :
    Watched constants q := by
  refine ⟨fun n hn => ?_, hq.thrown.trans h.returned⟩
  rw [hq.watchers, h.started n hn]
  by_cases hsame : n = type
  · subst hsame
    exact iff_of_true (hbefore hn) (hafter hn)
  · rw [hq.items n hn hsame]

theorem Watched.push (h : Watched constants p) (type : JSString) (e : Entry) :
    Watched constants (p.push constants type e) := by
  have hitems : ∀ n, (p.events.push type e).items n =
      if n = type then elements (p.events.get type) ++ [.fn e] else p.events.items n :=
    fun n => Object.items_push e
  have hq : Changed constants p type { p with events := p.events.push type e } :=
    ⟨fun n _ hn => (hitems n).trans (if_neg hn), rfl, rfl⟩
  unfold Signals.push
  by_cases htype : isSignal constants type = true
  · have hself : (p.events.push type e).items type = p.events.items type ++ [.fn e] := by
      rw [hitems, if_pos rfl, elements_get_signal htype]
    have hne : (p.events.push type e).items type ≠ [] := by
      rw [hself]
      exact List.append_ne_nil_of_right_ne_nil _ (List.cons_ne_nil _ _)
    have hlisteners : (({ p with events := p.events.push type e } : Signals).listeners
        type).1.events.items type ≠ [] := by
      rw [items_listeners_signal htype]
      exact hne
    rw [if_pos htype]
    cases hwatcher : p.watchers type with
    | none => exact h.set hq true (iff_of_true rfl hne)
    | some b =>
      dsimp only
      rw [listeners_signal htype]
      split_ifs with hone
      · exact h.set hq.listeners true (iff_of_true rfl hlisteners)
      · refine h.stay hq.listeners (fun _ hnil => hone ?_) fun _ => hlisteners
        rw [hself, hnil]
        rfl
  · rw [if_neg htype]
    exact h.stay hq (fun hsignal => absurd hsignal htype) fun hsignal => absurd hsignal htype

variable (field) in
theorem items_removeListener (o : Object) (type n : JSString) (listener : Fn) :
    (o.removeListener field type listener).items n =
      if n = type then (o.items n).eraseP (Item.matchesFn field listener)
      else o.items n := Object.items_removeListener field listener

variable (asserts field) in
/-- `removeListener` throws for a signal without a watcher, in any build. -/
theorem thrown_removeListener (h : Watched constants p) (htype : isSignal constants type = true)
    (hnone : p.watchers type = none) (listener : Fn) :
    (p.removeListener constants asserts field type listener).thrown = true := by
  have hnil : (p.events.removeListener field type listener).items type = [] := by
    rw [items_removeListener, if_pos rfl, h.no_items htype hnone]
    rfl
  unfold Signals.removeListener
  rw [if_neg (ne_true_of_eq_false h.returned)]
  dsimp only
  rw [if_pos htype, hnone]
  dsimp only
  rw [listeners_signal htype, hnil, List.length_nil, if_pos rfl]
  split_ifs <;> rfl

variable (asserts field) in
theorem watched_removeListener (h : Watched constants p) (type : JSString) (listener : Fn) :
    Watched constants (p.removeListener constants asserts field type listener) ↔
      (isSignal constants type = true → p.watchers type ≠ none) := by
  have hq : Changed constants p type
      { p with events := p.events.removeListener field type listener } :=
    ⟨fun n _ hn => (items_removeListener field _ type n listener).trans (if_neg hn), rfl, rfl⟩
  have hself := (items_removeListener field p.events type type listener).trans (if_pos rfl)
  by_cases htype : isSignal constants type = true
  · cases hwatcher : p.watchers type with
    | none =>
      have hthrown := thrown_removeListener asserts field h htype hwatcher listener
      exact iff_of_false (fun hw => absurd (hthrown.symm.trans hw.returned) nofun)
        fun hne => hne htype rfl
    | some b =>
      refine iff_of_true ?_ fun _ => nofun
      unfold Signals.removeListener
      rw [if_neg (ne_true_of_eq_false h.returned)]
      dsimp only
      rw [if_pos htype, hwatcher]
      dsimp only
      rw [listeners_signal htype]
      split_ifs with hlength
      · refine h.set hq.listeners false (iff_of_false nofun (not_not.mpr ?_))
        rw [items_listeners_signal htype]
        exact List.length_eq_zero_iff.mp hlength
      · have hne : (p.events.removeListener field type listener).items type ≠ [] :=
          fun hnil => hlength (congrArg List.length hnil)
        refine h.stay hq.listeners (fun _ hnil => hne ?_) fun _ => ?_
        · rw [hself, hnil]
          rfl
        · rw [items_listeners_signal htype]
          exact hne
  · unfold Signals.removeListener
    rw [if_neg (ne_true_of_eq_false h.returned)]
    dsimp only
    rw [if_neg htype]
    refine iff_of_true ?_ fun hsignal => absurd hsignal htype
    exact h.stay hq (fun hsignal => absurd hsignal htype) fun hsignal => absurd hsignal htype

/-- `removeAllListeners` leaves the watcher alone. -/
theorem watched_removeAllListeners (h : Watched constants p) (type : JSString) :
    Watched constants { p with events := p.events.removeAllListeners type } ↔
      (isSignal constants type = true → p.events.items type = []) := by
  have hitems : ∀ n, (p.events.removeAllListeners type).items n =
      if n = type ∧ type ≠ [] then [] else p.events.items n := fun n =>
    Object.items_removeAllListeners
  constructor
  · intro hw htype
    by_contra hne
    have hnonempty : type ≠ [] := by
      rintro rfl
      exact absurd (of_decide_eq_true htype).1 (by decide)
    have hstarted := (hw.started type htype).mp ((h.started type htype).mpr hne)
    exact hstarted ((hitems type).trans (if_pos ⟨rfl, hnonempty⟩))
  · intro hnil
    refine h.congr (fun n hn => ?_) rfl rfl
    rw [hitems]
    split_ifs with hsame
    · rw [hsame.1] at hn ⊢
      exact (hnil hn).symm
    · rfl

/-! ### Wrappers -/

/-- Only whether there is a watcher counts. -/
theorem guarded_congr {w w' : JSString → Option Bool} (h : ∀ n, w n = none ↔ w' n = none) :
    ∀ f : Fn, Guarded constants w f ↔ Guarded constants w' f
  | .once _ n listener => by
    unfold Guarded
    rw [guarded_congr h listener, ne_eq, h n]
  | .user _ => Iff.rfl
  | .builtin _ => Iff.rfl

/-- No watcher is made or lost. -/
theorem watchers_removeListener (type n : JSString) (listener : Fn) :
    (p.removeListener constants asserts field type listener).watchers n = none ↔
      p.watchers n = none := by
  unfold Signals.removeListener
  by_cases hthrown : p.thrown = true
  · rw [if_pos hthrown]
  · rw [if_neg hthrown]
    dsimp only
    by_cases htype : isSignal constants type = true
    · rw [if_pos htype]
      cases hwatcher : p.watchers type with
      | none =>
        dsimp only
        split_ifs <;> exact Iff.rfl
      | some b =>
        dsimp only
        split_ifs
        · show Function.update p.watchers type (some false) n = none ↔ _
          by_cases hsame : n = type
          · rw [hsame, Function.update_self, hwatcher]
            exact iff_of_false nofun nofun
          · rw [Function.update_of_ne hsame]
        · exact Iff.rfl
    · rw [if_neg htype]

theorem removeListener_thrown (h : p.thrown = true) (listener : Fn) :
    p.removeListener constants asserts field type listener = p := if_pos h

variable (constants asserts field) in
theorem unwrap_thrown (h : p.thrown = true) :
    ∀ f : Fn, Events.unwrap (processHandlers constants asserts field) p f = p
  | .once k n listener => by
    unfold Events.unwrap
    rw [show (processHandlers constants asserts field).removeListener p n (.once k n listener) = p
      from removeListener_thrown h _]
    exact unwrap_thrown h listener
  | .user _ => rfl
  | .builtin _ => rfl

theorem watched_unwrap (h : Watched constants p) (f : Fn) :
    Watched constants (Events.unwrap (processHandlers constants asserts field) p f) ↔
      Guarded constants p.watchers f := by
  induction f generalizing p with
  | user n => exact iff_of_true h trivial
  | builtin name => exact iff_of_true h trivial
  | once k n listener ih =>
    have hremove := watched_removeListener asserts field h n (.once k n listener)
    unfold Events.unwrap Guarded
    by_cases hguard : isSignal constants n = true → p.watchers n ≠ none
    · rw [and_iff_right hguard]
      refine (ih (hremove.mpr hguard)).trans (guarded_congr ?_ listener)
      exact fun m => watchers_removeListener n m _
    · refine iff_of_false (fun hw => ?_) fun hand => hguard hand.1
      obtain ⟨hsignal, hnone⟩ := Classical.not_imp.mp hguard
      have hthrown := thrown_removeListener asserts field h hsignal (not_not.mp hnone)
        (.once k n listener)
      have hsame := unwrap_thrown constants asserts field hthrown listener
      have hreturned := (congrArg Signals.thrown hsame).symm.trans hw.returned
      exact absurd (hthrown.symm.trans hreturned) nofun

/-! ### Control -/

variable {s s' : State Signals} {rest : List Frame}

theorem watched_settle : Watched constants (settle s).handlers ↔ Watched constants s.handlers := by
  unfold settle
  split_ifs <;> exact Iff.rfl

theorem Watched.finish (h : Watched constants s.handlers) (rest : List Frame) :
    Watched constants (Events.finish (processHandlers constants asserts field) s rest).handlers := by
  cases rest with
  | nil => exact h
  | cons f rest =>
    cases f with
    | add type e => exact h.push type e
    | _ => exact h

theorem watched_proceed (h : Watched constants s.handlers) (type : JSString) (called : List Entry)
    (rest : List Frame) (pending : List Item) :
    Watched constants (Events.proceed (processHandlers constants asserts field) s type called rest
        pending).handlers ↔
      GuardedFirst constants s.handlers.watchers pending.head? := by
  match pending with
  | [] =>
    refine iff_of_true ?_ nofun
    exact Watched.finish (s := { s with results := s.results ++ [⟨type, called, true⟩] }) h rest
  | .fn e :: pending =>
    refine (watched_unwrap h e.fn).trans ⟨fun hguard e' he' => ?_, fun hguard => hguard e rfl⟩
    obtain rfl := Item.fn.inj (Option.some.inj he')
    exact hguard
  | .other :: pending => exact iff_of_true h nofun

theorem watched_emit (h : Watched constants s.handlers) (type : JSString) (rest : List Frame) :
    Watched constants (Events.emit (processHandlers constants asserts field) s type rest).handlers ↔
      GuardedFirst constants s.handlers.watchers (s.handlers.events.plan type).first := by
  unfold Events.emit
  rw [show (processHandlers constants asserts field).plan s.handlers type =
    s.handlers.events.plan type from rfl]
  cases s.handlers.events.plan type with
  | throws => exact iff_of_true h nofun
  | skip =>
    refine iff_of_true ?_ nofun
    exact Watched.finish (s := { s with results := s.results ++ [⟨type, [], false⟩] }) h rest
  | call listeners => exact watched_proceed h type [] rest listeners

theorem watched_addListener (h : Watched constants s.handlers) (type : JSString) (e : Entry) :
    Watched constants
        (Events.addListener (processHandlers constants asserts field) s type e).handlers ↔
      GuardedFirst constants s.handlers.watchers
        (s.handlers.events.plan (js "newListener")).first := by
  have hcreate : Watched constants { s.handlers with events := s.handlers.events.create } :=
    h.congr (fun _ _ => Object.items_create) rfl rfl
  rw [← Object.plan_create inherited_newListener]
  exact watched_emit (s := { s with
    handlers := { s.handlers with events := s.handlers.events.create }, calls := s.calls + 1 })
    hcreate (js "newListener") (.add type e :: s.stack)

/-- A call keeps the watchers in step if and only if it is permitted. -/
theorem watched_perform (h : Watched constants s.handlers) (c : Call) :
    Watched constants (Events.perform (processHandlers constants asserts field) s c).handlers ↔
      Permitted constants s (.program (.call c)) := by
  cases c with
  | addListener type listener => exact watched_addListener h type _
  | once type listener =>
    exact watched_addListener (s := { s with made := s.made ++ [.once s.calls type listener] })
      h type _
  | removeListener type listener => exact watched_removeListener asserts field h type listener
  | removeAllListeners type => exact watched_removeAllListeners h type
  | listeners type => exact iff_of_true (h.listeners type) trivial
  | emit type => exact watched_emit h type s.stack
  | setMaxListeners n =>
    refine iff_of_true (h.congr (fun m hm => ?_) rfl rfl) trivial
    refine (Object.items_setMaxListeners n).trans (if_neg ?_)
    rintro rfl
    exact absurd (of_decide_eq_true hm).1 (by decide +kernel)

theorem watched_program (h : Watched constants s.handlers) {a : Action} {s' : State Signals}
    (hstep : Events.step (processHandlers constants asserts field) s a = some s') :
    Watched constants s'.handlers ↔ Permitted constants s (.program a) := by
  rcases step_cases _ hstep with ⟨c, rfl, -, rfl⟩ |
    ⟨type, called, pending, rest, rfl, hstack, rfl⟩ | ⟨rest, rfl, -, rfl⟩
  · exact watched_perform h c
  · unfold Permitted
    dsimp only
    rw [hstack]
    exact watched_proceed h type called rest pending
  · exact iff_of_true h trivial

theorem watched_step (h : Watched constants s.handlers) {a : Act}
    (hstep : step constants asserts field s a = some s') :
    Watched constants s'.handlers ↔ Permitted constants s a := by
  obtain ⟨⟨events, watchers, thrown⟩, calls, made, stack, log, results⟩ := s
  obtain rfl : thrown = false := h.returned
  unfold step at hstep
  dsimp only at hstep
  split at hstep
  · exact watched_program h hstep
  · obtain ⟨s'', hs'', rfl⟩ := Option.map_eq_some_iff.mp hstep
    exact watched_settle.trans (watched_program h hs'')
  · obtain ⟨-, hs'⟩ := Option.ite_none_right_eq_some.mp hstep
    obtain rfl := Option.some.inj hs'
    exact watched_settle.trans (watched_emit h _ [])

theorem watched_new : Watched constants new.handlers :=
  ⟨fun _ _ => iff_of_false nofun (not_not.mpr rfl), rfl⟩

/-- In every run, the watchers are started as the signals have listeners and no call throws, up to
the first step that is not permitted. -/
theorem signals_iff (constants : JSString → ℕ) (asserts : Bool) (field : ℕ → Option Fn)
    (as : List Act) :
    Along (step constants asserts field) (fun _ _ s' =>
        (∀ type, isSignal constants type = true →
          (s'.handlers.watchers type = some true ↔ s'.handlers.events.items type ≠ [])) ∧
        s'.handlers.thrown = false) new as ↔
      Along (step constants asserts field) (fun s a _ => Permitted constants s a) new as := by
  refine along_iff (I := fun _ => True)
    (P := fun s : State Signals => (∀ type, isSignal constants type = true →
      (s.handlers.watchers type = some true ↔ s.handlers.events.items type ≠ [])) ∧
      s.handlers.thrown = false)
    trivial ⟨watched_new.started, rfl⟩ (fun _ _ _ _ _ => trivial) ?_ as
  intro s a s' _ hs hstep
  refine Iff.trans ?_ (watched_step ⟨hs.1, hs.2⟩ hstep)
  exact ⟨fun h => ⟨h.1, h.2⟩, fun h => ⟨h.started, h.returned⟩⟩

end

def sigint (name : JSString) : ℕ := if name = js "SIGINT" then 2 else 0

/-- All listeners of `'SIGINT'` are removed, and its watcher goes on. -/
theorem watcher_left : ¬ ∀ (constants : JSString → ℕ) (asserts : Bool) (field : ℕ → Option Fn)
    (as : List Act) (s : State Signals), run (step constants asserts field) new as = some s →
    (∀ type, isSignal constants type = true →
      (s.handlers.watchers type = some true ↔ s.handlers.events.items type ≠ [])) ∧
    s.handlers.thrown = false := by
  intro h
  have hrun : (run (step sigint false fun _ => none) new
      [.program (.call (.addListener (js "SIGINT") (.user 0))),
        .program (.call (.removeAllListeners (js "SIGINT")))]).map
      (fun s => (s.handlers.watchers (js "SIGINT"), s.handlers.events.items (js "SIGINT"))) =
      some (some true, []) := by decide +kernel
  obtain ⟨s, hs, heq⟩ := Option.map_eq_some_iff.mp hrun
  obtain ⟨hwatcher, hitems⟩ := Prod.mk.inj heq
  exact ((h _ _ _ _ s hs).1 (js "SIGINT") (by decide +kernel)).mp hwatcher hitems

/-- A listener that was never added is removed. -/
example : (run (step sigint false fun _ => none) new
    [.program (.call (.removeListener (js "SIGINT") (.user 0)))]).map
    (fun s => s.handlers.thrown) = some true := by decide +kernel

end NodeJS.Process
