import NodeJS.Events.Items
import NodeJS.Lib.Silent

/-! A plain emitter: an ordered list of listeners for each name, and the rules by which `emit`
calls them one after the other. The one of `events.js` cannot be told from it by the listeners it
calls or reports. -/
namespace NodeJS.Events
open Lib Relation

/-- What a plain emitter is in the middle of. -/
inductive Activity
  /-- A listener runs. -/
  | body
  /-- `emit` has these listeners still to call. -/
  | emitting (type : JSString) (rest : List Entry)
  /-- A listener is called. -/
  | calling (f : Fn)
  /-- `addListener` waits until the listeners of `'newListener'` have been called. -/
  | adding (type : JSString) (e : Entry)

/-- The program does not run in it. -/
def Activity.waits : Activity → Bool
  | .body => false
  | _ => true

structure PlainEmitter where
  lists : JSString → List Entry
  calls : ℕ
  made : List Fn
  stack : List Activity
  log : List Event

namespace PlainEmitter

def new : PlainEmitter := ⟨fun _ => [], 0, [], [], []⟩

def setList (p : PlainEmitter) (type : JSString) (l : List Entry) : PlainEmitter :=
  { p with lists := Function.update p.lists type l }

/-- Only the first listener that is `f`, or was made of it by `once`, is removed. -/
def remove (field : ℕ → Option Fn) (p : PlainEmitter) (type : JSString) (f : Fn) : PlainEmitter :=
  p.setList type ((p.lists type).eraseP (Entry.matchesFn field f))

/-- `emit` is to call the listeners that are registered now. -/
def announce (p : PlainEmitter) (type : JSString) : PlainEmitter :=
  { p with stack := .emitting type (p.lists type) :: p.stack }

/-- `addListener`: `'newListener'` comes first. -/
def add (p : PlainEmitter) (type : JSString) (f : Fn) : PlainEmitter :=
  announce { p with calls := p.calls + 1, stack := .adding type ⟨f, some p.calls⟩ :: p.stack }
    (js "newListener")

/-- The program runs, in a listener or outside of any. -/
def Rests (p : PlainEmitter) : Prop := ∀ x ∈ p.stack.head?, x = .body

inductive Goes (field : ℕ → Option Fn) : PlainEmitter → PlainEmitter → Prop
  /-- The next listener is called. -/
  | next {p : PlainEmitter} {type : JSString} {e : Entry} {rest : List Entry}
      {below : List Activity} (h : p.stack = .emitting type (e :: rest) :: below) :
      Goes field p { p with
        stack := .calling e.fn :: .emitting type rest :: below
        log := p.log ++ [.invoked type e] }
  /-- A listener made by `once` removes itself first, then calls what it was made of. -/
  | unwrap {p : PlainEmitter} {k : ℕ} {type : JSString} {f : Fn} {below : List Activity}
      (h : p.stack = .calling (.once k type f) :: below) :
      Goes field p { remove field p type (.once k type f) with stack := .calling f :: below }
  | user {p : PlainEmitter} {n : ℕ} {below : List Activity}
      (h : p.stack = .calling (.user n) :: below) :
      Goes field p { p with stack := .body :: below }
  | builtin {p : PlainEmitter} {name : JSString} {below : List Activity}
      (h : p.stack = .calling (.builtin name) :: below) :
      Goes field p { p with stack := .body :: below }
  /-- All listeners were called. -/
  | done {p : PlainEmitter} {type : JSString} {below : List Activity}
      (h : p.stack = .emitting type [] :: below) : Goes field p { p with stack := below }
  /-- The listener is added at the end. -/
  | register {p : PlainEmitter} {type : JSString} {e : Entry} {below : List Activity}
      (h : p.stack = .adding type e :: below) :
      Goes field p { p.setList type (p.lists type ++ [e]) with
        stack := below
        log := p.log ++ [.registered type e] }

inductive Acts (field : ℕ → Option Fn) : PlainEmitter → Action → PlainEmitter → Prop
  | addListener {p : PlainEmitter} {type : JSString} {f : Fn} (hp : p.Rests)
      (hc : (Call.addListener type f).Valid p.made) :
      Acts field p (.call (.addListener type f)) (p.add type f)
  /-- `once` adds a new function. -/
  | once {p : PlainEmitter} {type : JSString} {f : Fn} (hp : p.Rests)
      (hc : (Call.once type f).Valid p.made) :
      Acts field p (.call (.once type f))
        (add { p with made := p.made ++ [.once p.calls type f] } type (.once p.calls type f))
  | removeListener {p : PlainEmitter} {type : JSString} {f : Fn} (hp : p.Rests)
      (hc : (Call.removeListener type f).Valid p.made) :
      Acts field p (.call (.removeListener type f)) (remove field p type f)
  | removeAllListeners {p : PlainEmitter} {type : JSString} (hp : p.Rests)
      (hc : (Call.removeAllListeners type).Valid p.made) :
      Acts field p (.call (.removeAllListeners type)) (p.setList type [])
  | listeners {p : PlainEmitter} {type : JSString} (hp : p.Rests)
      (hc : (Call.listeners type).Valid p.made) :
      Acts field p (.call (.listeners type))
        { p with log := p.log ++ [.reported type ((p.lists type).map .fn)] }
  | emit {p : PlainEmitter} {type : JSString} (hp : p.Rests)
      (herror : type = js "error" → p.lists type ≠ []) :
      Acts field p (.call (.emit type)) (p.announce type)
  /-- An `'error'` that nobody listens to is thrown at the caller. -/
  | unhandled {p : PlainEmitter} (hp : p.Rests) (herror : p.lists (js "error") = []) :
      Acts field p (.call (.emit (js "error"))) p
  | setMaxListeners {p : PlainEmitter} {n : ℕ} (hp : p.Rests) :
      Acts field p (.call (.setMaxListeners n)) p
  | ret {p : PlainEmitter} {below : List Activity} (h : p.stack = .body :: below) :
      Acts field p .ret { p with stack := below }
  /-- An exception of a listener ends what called it, up to the listener that made the call. -/
  | throws {p : PlainEmitter} {below : List Activity} (h : p.stack = .body :: below) :
      Acts field p .throws { p with stack := below.dropWhile Activity.waits }

/-- One action, and what the emitter does then. -/
def Step (field : ℕ → Option Fn) : PlainEmitter → Action → PlainEmitter → Prop :=
  Responds (Acts field) (Goes field) Rests

/-- The listeners called and reported, and how many calls are going on. -/
def view (p : PlainEmitter) : List Event × ℕ := (p.log, p.stack.length)

variable {field : ℕ → Option Fn}

theorem goes_unique : Relator.RightUnique (Goes field) := by
  intro p q r hq hr
  cases hq with
  | next h => cases hr <;> simp_all
  | unwrap h => cases hr <;> simp_all
  | user h => cases hr <;> simp_all
  | builtin h => cases hr <;> simp_all
  | done h => cases hr <;> simp_all
  | register h => cases hr <;> simp_all

theorem not_goes_of_rests (p q : PlainEmitter) (h : p.Rests) : ¬ Goes field p q := by
  intro hgoes
  unfold Rests at h
  cases hgoes with
  | next hs => simp [hs] at h
  | unwrap hs => simp [hs] at h
  | user hs => simp [hs] at h
  | builtin hs => simp [hs] at h
  | done hs => simp [hs] at h
  | register hs => simp [hs] at h

theorem acts_unique (p : PlainEmitter) (a : Action) (q r : PlainEmitter) (hq : Acts field p a q)
    (hr : Acts field p a r) : q = r := by
  cases hq with
  | emit hp herror =>
    cases hr with
    | emit => rfl
    | unhandled _ hnone => exact absurd hnone (herror rfl)
  | unhandled hp hnone =>
    cases hr with
    | emit _ herror => exact absurd hnone (herror rfl)
    | unhandled => rfl
  | ret h =>
    cases hr with
    | ret h' => rw [(List.cons.inj (h.symm.trans h')).2]
  | throws h =>
    cases hr with
    | throws h' => rw [(List.cons.inj (h.symm.trans h')).2]
  | _ =>
    cases hr
    rfl

theorem step_unique (p : PlainEmitter) (a : Action) (q r : PlainEmitter) (hq : Step field p a q)
    (hr : Step field p a r) : q = r :=
  responds_unique acts_unique goes_unique not_goes_of_rests hq hr

end PlainEmitter

/-! ### An object keeps the lists -/

/-- A name of an event that `_events` has no other use for. -/
def Plain (name : JSString) : Prop :=
  name ≠ [] ∧ inherited name = none ∧ name ≠ js "maxListeners"

instance : DecidablePred Plain := fun _ => inferInstanceAs (Decidable (_ ∧ _))

theorem plain_newListener : Plain (js "newListener") := by decide +kernel

/-- The calls that name an event, with such a name. -/
def Call.Plain : Call → Prop
  | .addListener type _ => Events.Plain type
  | .once type _ => Events.Plain type
  | .removeListener type _ => Events.Plain type
  | .removeAllListeners type => Events.Plain type
  | .listeners type => Events.Plain type
  | .emit type => Events.Plain type
  | .setMaxListeners _ => True

def Action.Plain : Action → Prop
  | .call c => c.Plain
  | _ => True

/-- An object that keeps the lists, under the plain names. -/
def Keeps (o : Object) (lists : JSString → List Entry) : Prop :=
  ∀ name, Plain name → o.items name = (lists name).map .fn

theorem Keeps.init : Keeps none fun _ => [] := fun _ _ => rfl

section
variable {o : Object} {lists : JSString → List Entry} {name : JSString}

theorem elements_get (h : Plain name) : elements (o.get name) = o.items name :=
  Object.elements_get (by rw [h.2.1, elements])

/-- Writing under one name leaves the lists of the others. -/
theorem Keeps.update (h : Keeps o lists) {o' : Object} {l : List Entry}
    (hne : ∀ n, n ≠ name → o'.items n = o.items n)
    (hl : Plain name → o'.items name = l.map .fn) : Keeps o' (Function.update lists name l) := by
  intro n hn
  by_cases he : n = name
  · subst he
    rw [Function.update_self]
    exact hl hn
  · rw [Function.update_of_ne he, hne n he]
    exact h n hn

theorem Keeps.plan (h : Keeps o lists) (hn : Plain name) {e : Entry} {l : List Entry}
    (hl : lists name = e :: l) : o.plan name = .call ((e :: l).map .fn) := by
  have hitems : elements (o.get name) = (e :: l).map .fn := by rw [elements_get hn, h name hn, hl]
  unfold Object.plan
  generalize o.get name = v at hitems
  cases v with
  | none => cases hitems
  | some v =>
    cases v with
    | null => cases hitems
    | object => simp [elements] at hitems
    | number k =>
      simp only [elements] at hitems
      split_ifs at hitems <;> simp at hitems
    | fn e' =>
      rw [← hitems]
      simp [truthy, elements]
    | array l' =>
      obtain rfl : l' = (e :: l).map .fn := hitems
      simp [truthy]

/-- Without listeners there may still be an empty array, which `emit` goes through. -/
theorem Keeps.plan_nil (h : Keeps o lists) (hn : Plain name) (hl : lists name = []) :
    (name = js "error" → o.plan name = .throws) ∧
      (name ≠ js "error" → o.plan name = .skip ∨ o.plan name = .call []) := by
  have hitems : elements (o.get name) = [] := by rw [elements_get hn, h name hn, hl, List.map_nil]
  unfold Object.plan
  generalize o.get name = v at hitems
  cases v with
  | none => simp +contextual [truthy]
  | some v =>
    cases v with
    | null => simp +contextual [truthy]
    | fn e => cases hitems
    | object => cases hitems
    | number k =>
      have hk : k = 0 := by simpa [elements] using hitems
      simp +contextual [truthy, hk]
    | array l =>
      obtain rfl : l = [] := hitems
      simp +contextual [truthy]

theorem Keeps.push (h : Keeps o lists) (hn : Plain name) (e : Entry) :
    Keeps (o.push name e) (Function.update lists name (lists name ++ [e])) := by
  apply h.update
  · intro n hne
    rw [Object.items_push, if_neg hne]
  · intro _
    rw [Object.items_push, if_pos rfl, elements_get hn, h name hn, List.map_append]
    rfl

theorem Keeps.removeListener (h : Keeps o lists) (field : ℕ → Option Fn) (name : JSString)
    (listener : Fn) :
    Keeps (o.removeListener field name listener)
      (Function.update lists name ((lists name).eraseP (Entry.matchesFn field listener))) := by
  apply h.update
  · intro n hne
    rw [Object.items_removeListener, if_neg hne]
  · intro hn
    rw [Object.items_removeListener, if_pos rfl, h name hn, List.eraseP_map]
    rfl

theorem Keeps.removeAllListeners (h : Keeps o lists) (hn : Plain name) :
    Keeps (o.removeAllListeners name) (Function.update lists name []) := by
  apply h.update
  · intro n hne
    rw [Object.items_removeAllListeners, if_neg fun hboth => hne hboth.1]
  · intro _
    rw [Object.items_removeAllListeners, if_pos ⟨rfl, hn.1⟩]
    rfl

theorem Keeps.listeners (h : Keeps o lists) (hn : Plain name) :
    Keeps (o.listeners name).1 lists ∧ (o.listeners name).2 = (lists name).map .fn := by
  have hget : elements (o.create.get name) = (lists name).map .fn :=
    (elements_get hn).trans (h name hn)
  constructor
  · intro n hn'
    rw [Object.items_listeners]
    split_ifs with he
    · rw [he, hget]
    · exact h n hn'
  · rw [(Object.listeners_eq o name).1, hget]

theorem Keeps.setMaxListeners (h : Keeps o lists) (n : ℕ) : Keeps (o.setMaxListeners n) lists := by
  intro name hn
  rw [Object.items_setMaxListeners, if_neg hn.2.2]
  exact h name hn

end

/-! ### Runs -/

/-- The same calls are going on. -/
inductive Stacks : List Frame → List Activity → Prop
  | nil : Stacks [] []
  | listener {type : JSString} {called rest : List Entry} {fs : List Frame} {as : List Activity}
      (h : Stacks fs as) :
      Stacks (.body :: .emit type called (rest.map .fn) :: fs) (.body :: .emitting type rest :: as)
  | add {type : JSString} {e : Entry} {fs : List Frame} {as : List Activity} (htype : Plain type)
      (hrests : ∀ x ∈ as.head?, x = .body) (h : Stacks fs as) :
      Stacks (.add type e :: fs) (.adding type e :: as)

/-- Where an exception arrives, the program runs on both sides. -/
theorem Stacks.unwind {fs : List Frame} {as : List Activity} (h : Stacks fs as) :
    Stacks (unwind fs) (as.dropWhile Activity.waits) ∧
      ∀ x ∈ (as.dropWhile Activity.waits).head?, x = .body := by
  induction h with
  | nil => exact ⟨.nil, by simp⟩
  | listener h => exact ⟨.listener h, by simp [Activity.waits]⟩
  | add _ _ _ ih => exact ih

theorem Stacks.unwind_eq {fs : List Frame} {as : List Activity} (h : Stacks fs as)
    (hrests : ∀ x ∈ as.head?, x = .body) : Events.unwind fs = fs := by
  cases h with
  | nil => rfl
  | listener h => rfl
  | add htype _ h => exact absurd (hrests _ rfl) (by simp)

/-- `events.js` has come as far as a plain emitter at rest. -/
structure Same (s : State Object) (p : PlainEmitter) : Prop where
  keeps : Keeps s.handlers p.lists
  calls : s.calls = p.calls
  made : s.made = p.made
  log : s.log = p.log
  stack : Stacks s.stack p.stack
  rests : p.Rests

/-- A plain emitter comes to rest where `s` is. -/
def Settles (field : ℕ → Option Fn) (p : PlainEmitter) (s : State Object) : Prop :=
  ∃ p', ReflTransGen (PlainEmitter.Goes field) p p' ∧ Same s p'

theorem Settles.head {field : ℕ → Option Fn} {p q : PlainEmitter} {s : State Object}
    (h : PlainEmitter.Goes field p q) (hq : Settles field q s) : Settles field p s := by
  obtain ⟨p', hpath, hsame⟩ := hq
  exact ⟨p', .head h hpath, hsame⟩

/-- A wrapper and what it wraps remove themselves one after the other. -/
theorem goes_unwrap (field : ℕ → Option Fn) (below : List Activity) (f : Fn) {o : Object}
    {p : PlainEmitter} (h : Keeps o p.lists) (hstack : p.stack = .calling f :: below) :
    ∃ lists, ReflTransGen (PlainEmitter.Goes field) p
        { p with lists := lists, stack := .body :: below } ∧
      Keeps (unwrap (objectHandlers field) o f) lists := by
  induction f generalizing o p with
  | user n => exact ⟨p.lists, .single (.user hstack), h⟩
  | builtin name => exact ⟨p.lists, .single (.builtin hstack), h⟩
  | once k type listener ih =>
    obtain ⟨lists, hpath, hkeeps⟩ := ih (h.removeListener field type (.once k type listener))
      (p := { p.remove field type (.once k type listener) with
        stack := .calling listener :: below }) rfl
    exact ⟨lists, .head (.unwrap hstack) hpath, hkeeps⟩

section
variable {s : State Object} {p : PlainEmitter} (field : ℕ → Option Fn) {rest : List Frame}
  {as : List Activity} (h : Same s p) (hrest : Stacks rest as)

include h hrest

theorem Same.finish :
    Settles field { p with stack := as } (finish (objectHandlers field) s rest) := by
  cases hrest with
  | nil => exact ⟨_, .refl, h.keeps, h.calls, h.made, h.log, .nil, by simp [PlainEmitter.Rests]⟩
  | listener hfs =>
    exact ⟨_, .refl, h.keeps, h.calls, h.made, h.log, .listener hfs, by simp [PlainEmitter.Rests]⟩
  | add htype hrests hfs =>
    refine Settles.head (.register rfl) ⟨_, .refl, h.keeps.push htype _, h.calls, h.made, ?_, hfs,
      hrests⟩
    exact congrArg (· ++ [_]) h.log

theorem Same.proceed (type : JSString) (called l : List Entry) :
    Settles field { p with stack := .emitting type l :: as }
      (proceed (objectHandlers field) s type called rest (l.map .fn)) := by
  cases l with
  | nil =>
    have hresult : Same { s with results := s.results ++ [⟨type, called, true⟩] } p :=
      ⟨h.keeps, h.calls, h.made, h.log, h.stack, h.rests⟩
    exact (hresult.finish field hrest).head (.done rfl)
  | cons e l =>
    refine Settles.head (.next rfl) ?_
    obtain ⟨lists, hpath, hkeeps⟩ := goes_unwrap field (.emitting type l :: as) e.fn
      (p := { p with
        stack := .calling e.fn :: .emitting type l :: as, log := p.log ++ [.invoked type e] })
      h.keeps rfl
    refine ⟨_, hpath, hkeeps, h.calls, h.made, ?_, .listener hrest, by simp [PlainEmitter.Rests]⟩
    exact congrArg (· ++ [Event.invoked type e]) h.log

theorem Same.emit {type : JSString} (htype : Plain type)
    (hhandled : type = js "error" → p.lists type ≠ []) :
    Settles field { p with stack := .emitting type (p.lists type) :: as }
      (emit (objectHandlers field) s type rest) := by
  have hown : (objectHandlers field).plan s.handlers type = s.handlers.plan type := rfl
  unfold Events.emit
  rw [hown]
  cases hl : p.lists type with
  | cons e l =>
    rw [h.keeps.plan htype hl]
    exact h.proceed field hrest type [] (e :: l)
  | nil =>
    rcases (h.keeps.plan_nil htype hl).2 fun he => hhandled he hl with hskip | hcall
    · have hresult : Same { s with results := s.results ++ [⟨type, [], false⟩] } p :=
        ⟨h.keeps, h.calls, h.made, h.log, h.stack, h.rests⟩
      rw [hskip]
      exact (hresult.finish field hrest).head (.done rfl)
    · rw [hcall]
      exact h.proceed field hrest type [] []

end

section
variable {s : State Object} {p : PlainEmitter} (field : ℕ → Option Fn)

theorem Same.addListener (h : Same s p) {type : JSString} (htype : Plain type) (f : Fn) :
    Settles field (p.add type f) (addListener (objectHandlers field) s type ⟨f, some s.calls⟩) := by
  have hcreate : Same { s with handlers := s.handlers.create, calls := s.calls + 1 }
      { p with calls := p.calls + 1 } :=
    ⟨h.keeps, congrArg (· + 1) h.calls, h.made, h.log, h.stack, h.rests⟩
  have hadd : Stacks (.add type ⟨f, some s.calls⟩ :: s.stack)
      (.adding type ⟨f, some p.calls⟩ :: p.stack) := by
    rw [h.calls]
    exact .add htype h.rests h.stack
  exact hcreate.emit field hadd plain_newListener fun he => absurd he (by decide +kernel)

/-- A call that `events.js` performs. -/
theorem Same.perform (h : Same s p) {c : Call} (hc : c.Plain) (hvalid : c.Valid s.made) :
    ∃ p', PlainEmitter.Step field p (.call c) p' ∧
      Same (perform (objectHandlers field) s c) p' := by
  have hvalid' := h.made ▸ hvalid
  have hsettles : ∀ {q}, PlainEmitter.Acts field p (.call c) q →
      Settles field q (Events.perform (objectHandlers field) s c) →
      ∃ p', PlainEmitter.Step field p (.call c) p' ∧
        Same (Events.perform (objectHandlers field) s c) p' := by
    rintro q hq ⟨p', hpath, hsame⟩
    exact ⟨p', ⟨q, hq, hpath, hsame.rests⟩, hsame⟩
  cases c with
  | addListener type listener =>
    exact hsettles (.addListener h.rests hvalid') (h.addListener field hc listener)
  | once type listener =>
    have hmade : Same { s with made := s.made ++ [.once s.calls type listener] }
        { p with made := p.made ++ [.once p.calls type listener] } :=
      ⟨h.keeps, h.calls, by rw [h.made, h.calls], h.log, h.stack, h.rests⟩
    have hadd := hmade.addListener field hc (.once s.calls type listener)
    refine hsettles (.once h.rests hvalid') ?_
    rw [← h.calls] at hadd ⊢
    exact hadd
  | removeListener type listener =>
    refine hsettles (.removeListener h.rests hvalid') ⟨_, .refl, ?_⟩
    exact ⟨h.keeps.removeListener field type listener, h.calls, h.made, h.log, h.stack, h.rests⟩
  | removeAllListeners type =>
    refine hsettles (.removeAllListeners h.rests hvalid') ⟨_, .refl, ?_⟩
    exact ⟨h.keeps.removeAllListeners hc, h.calls, h.made, h.log, h.stack, h.rests⟩
  | listeners type =>
    obtain ⟨hkeeps, hlist⟩ := h.keeps.listeners hc
    refine hsettles (.listeners h.rests hvalid') ⟨_, .refl, ?_⟩
    refine ⟨hkeeps, h.calls, h.made, ?_, h.stack, h.rests⟩
    have hlog : s.log ++ [Event.reported type (s.handlers.listeners type).2] =
        p.log ++ [Event.reported type ((p.lists type).map .fn)] := by
      rw [h.log, hlist]
    exact hlog
  | emit type =>
    by_cases hthrows : type = js "error" ∧ p.lists type = []
    · obtain ⟨rfl, hnone⟩ := hthrows
      have hown : (objectHandlers field).plan s.handlers (js "error") = .throws :=
        (h.keeps.plan_nil hc hnone).1 rfl
      have hperform : Events.perform (objectHandlers field) s (.emit (js "error")) = s := by
        simp only [Events.perform, Events.emit, hown, h.stack.unwind_eq h.rests]
      exact hsettles (.unhandled h.rests hnone) ⟨p, .refl, hperform.symm ▸ h⟩
    · refine hsettles (.emit h.rests fun he hnone => hthrows ⟨he, hnone⟩) ?_
      exact h.emit field h.stack hc fun he hnone => hthrows ⟨he, hnone⟩
  | setMaxListeners n =>
    refine hsettles (.setMaxListeners h.rests) ⟨_, .refl, ?_⟩
    exact ⟨h.keeps.setMaxListeners n, h.calls, h.made, h.log, h.stack, h.rests⟩

theorem Same.step (h : Same s p) {a : Action} (ha : a.Plain) {s' : State Object}
    (hs : step (objectHandlers field) s a = some s') :
    ∃ p', PlainEmitter.Step field p a p' ∧ Same s' p' := by
  have hstacks := h.stack
  rcases step_cases _ hs with ⟨c, rfl, hvalid, rfl⟩ |
    ⟨type, called, pending, rest, rfl, hstack, rfl⟩ | ⟨rest, rfl, hstack, rfl⟩
  · exact h.perform field ha hvalid
  · rw [hstack] at hstacks
    generalize hp : p.stack = stack at hstacks
    cases hstacks with
    | listener hrest =>
      obtain ⟨p', hpath, hsame⟩ := h.proceed field hrest type called _
      exact ⟨p', ⟨_, .ret hp, hpath, hsame.rests⟩, hsame⟩
  · rw [hstack] at hstacks
    generalize hp : p.stack = stack at hstacks
    cases hstacks with
    | listener hrest =>
      obtain ⟨hunwind, hrests⟩ := hrest.unwind
      exact ⟨_, ⟨_, .throws hp, .refl, hrests⟩, h.keeps, h.calls, h.made, h.log, hunwind, hrests⟩

/-- What a plain emitter lets the program do, `events.js` lets it do. -/
theorem Same.enabled (h : Same s p) {a : Action} {q : PlainEmitter}
    (hact : PlainEmitter.Acts field p a q) :
    (Events.step (objectHandlers field) s a).isSome = true := by
  have hstacks := h.stack
  have hcall : ∀ c : Call, c.Valid p.made →
      (Events.step (objectHandlers field) s (.call c)).isSome = true := by
    intro c hvalid
    have hrests := h.rests
    rw [← h.made] at hvalid
    unfold PlainEmitter.Rests at hrests
    generalize p.stack = stack at hstacks hrests
    generalize hstack : s.stack = frames at hstacks
    unfold Events.step
    cases hstacks with
    | nil => simp [hstack, hvalid]
    | listener _ => simp [hstack, hvalid]
    | add _ _ _ => exact absurd (hrests _ rfl) (by simp)
  cases hact with
  | addListener _ hvalid => exact hcall _ hvalid
  | once _ hvalid => exact hcall _ hvalid
  | removeListener _ hvalid => exact hcall _ hvalid
  | removeAllListeners _ hvalid => exact hcall _ hvalid
  | listeners _ hvalid => exact hcall _ hvalid
  | emit _ _ => exact hcall (.emit _) trivial
  | unhandled _ _ => exact hcall (.emit _) trivial
  | setMaxListeners _ => exact hcall (.setMaxListeners _) trivial
  | ret hp =>
    rw [hp] at hstacks
    generalize hstack : s.stack = frames at hstacks
    cases hstacks with
    | listener _ => simp [Events.step, hstack]
  | throws hp =>
    rw [hp] at hstacks
    generalize hstack : s.stack = frames at hstacks
    cases hstacks with
    | listener _ => simp [Events.step, hstack]

end

/-- What can be seen of a run: the listeners called and reported, and the calls going on. -/
def State.view {σ : Type} (s : State σ) : List Event × ℕ := (s.log, s.stack.length)

theorem Stacks.length_eq {fs : List Frame} {as : List Activity} (h : Stacks fs as) :
    fs.length = as.length := by
  induction h with
  | nil => rfl
  | listener h ih => simp [ih]
  | add _ _ _ ih => simp [ih]

theorem Same.view_eq {s : State Object} {p : PlainEmitter} (h : Same s p) : s.view = p.view :=
  Prod.ext h.log h.stack.length_eq

theorem Same.init : Same State.new .new :=
  ⟨Keeps.init, rfl, rfl, rfl, .nil, by simp [PlainEmitter.Rests, PlainEmitter.new]⟩

/-- In every run over plain names an emitter calls and reports the listeners that a plain one
does, and it has a run whenever that has one. -/
theorem view_eq_plain (field : ℕ → Option Fn) (as : List Action) (h : ∀ a ∈ as, a.Plain)
    (v : List Event × ℕ) :
    (∃ s, run (step (objectHandlers field)) State.new as = some s ∧ s.view = v) ↔
      ∃ p, RunsTo (PlainEmitter.Step field) .new as p ∧ p.view = v := by
  obtain ⟨hto, hfrom⟩ := run_runs PlainEmitter.step_unique
    (fun s p a s' hsame ha hs => hsame.step field ha hs)
    (fun s p a q hsame _ hstep => hsame.enabled field hstep.choose_spec.1) Same.init h
  constructor
  · rintro ⟨s, hs, hv⟩
    obtain ⟨p, hp, hsame⟩ := hto s hs
    exact ⟨p, hp, hsame.view_eq ▸ hv⟩
  · rintro ⟨p, hp, hv⟩
    obtain ⟨s, hs, hsame⟩ := hfrom p hp
    exact ⟨s, hs, hsame.view_eq.symm ▸ hv⟩

/-- A listener that is called once, and one that stays. -/
theorem view_eq_plain_once :
    ∃ p, RunsTo (PlainEmitter.Step fun _ => none) .new
        [.call (.once (js "data") (.user 0)), .call (.addListener (js "data") (.user 1)),
          .call (.emit (js "data")), .ret, .ret, .call (.listeners (js "data"))] p ∧
      p.view =
        ([.registered (js "data") ⟨.once 0 (js "data") (.user 0), some 0⟩,
          .registered (js "data") ⟨.user 1, some 1⟩,
          .invoked (js "data") ⟨.once 0 (js "data") (.user 0), some 0⟩,
          .invoked (js "data") ⟨.user 1, some 1⟩, .reported (js "data") [.fn ⟨.user 1, some 1⟩]],
          0) := by
  have hdata : Plain (js "data") := by decide +kernel
  refine (view_eq_plain (fun _ => none) _ ?_ _).mp ⟨_, rfl, by decide +kernel⟩
  intro a ha
  simp only [List.mem_cons, List.not_mem_nil, or_false] at ha
  rcases ha with rfl | rfl | rfl | rfl | rfl | rfl
  all_goals first | exact hdata | trivial

end NodeJS.Events
