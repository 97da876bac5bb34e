import NodeJS.Events.Items

/-! What `emit` returns, and which functions it calls. -/
namespace NodeJS.Events
open Lib

/-! ### Functions that `addListener` and `once` have put there -/

section
variable {log log' : List Event} {type : JSString}

def Item.Registered (log : List Event) (type : JSString) : Item → Prop
  | .fn e => .registered type e ∈ log
  | .other => False

/-- The first element may also be what `_events` had under the name before. -/
def Item.First (log : List Event) (type : JSString) : Item → Prop
  | .fn e => .registered type e ∈ log ∨ e.call = none
  | .other => True

/-- The elements under a name. -/
inductive Stocked (log : List Event) (type : JSString) : List Item → Prop
  | nil : Stocked log type []
  | cons {x : Item} {l : List Item} (first : x.First log type)
      (rest : ∀ y ∈ l, y.Registered log type) : Stocked log type (x :: l)

theorem Item.Registered.mono {x : Item} (h : x.Registered log type) (hsub : log ⊆ log') :
    x.Registered log' type := by
  cases x with
  | fn e => exact hsub h
  | other => exact h

theorem Item.First.mono {x : Item} (h : x.First log type) (hsub : log ⊆ log') :
    x.First log' type := by
  cases x with
  | fn e => exact h.imp_left fun hmem => hsub hmem
  | other => exact h

theorem Item.Registered.first {x : Item} (h : x.Registered log type) : x.First log type := by
  cases x with
  | fn e => exact .inl h
  | other => exact h.elim

theorem Stocked.mono {l : List Item} (h : Stocked log type l) (hsub : log ⊆ log') :
    Stocked log' type l := by
  cases h with
  | nil => exact .nil
  | cons first rest => exact .cons (first.mono hsub) fun y hy => (rest y hy).mono hsub

theorem Stocked.of_registered {l : List Item} (h : ∀ y ∈ l, y.Registered log type) :
    Stocked log type l := by
  cases l with
  | nil => exact .nil
  | cons x l =>
    exact .cons (h x List.mem_cons_self).first fun y hy => h y (List.mem_cons_of_mem _ hy)

theorem Stocked.sublist {l l' : List Item} (h : Stocked log type l) (hsub : l'.Sublist l) :
    Stocked log type l' := by
  cases hsub with
  | slnil => exact .nil
  | cons x hsub =>
    cases h with
    | cons first rest => exact .of_registered fun y hy => rest y (hsub.mem hy)
  | cons_cons x hsub =>
    cases h with
    | cons first rest => exact .cons first fun y hy => rest y (hsub.mem hy)

theorem Stocked.append {l : List Item} (h : Stocked log type l) {x : Item}
    (hx : x.Registered log type) : Stocked log type (l ++ [x]) := by
  cases h with
  | nil => exact .cons hx.first (by simp)
  | cons first rest =>
    refine .cons first fun y hy => ?_
    rcases List.mem_append.mp hy with hy | hy
    · exact rest y hy
    · obtain rfl := List.mem_singleton.mp hy
      exact hx

theorem stocked_other : Stocked log type [.other] := .cons trivial (by simp)

theorem stocked_inherited : Stocked log type (elements (inherited type)) := by
  unfold inherited
  split_ifs
  · exact .cons (.inr rfl) (by simp)
  · exact stocked_other
  · exact .nil

end

/-! ### The store -/

/-- Under every name. -/
def Object.Stocked (log : List Event) (o : Object) : Prop := ∀ n, Events.Stocked log n (o.items n)

namespace Object.Stocked
variable {log : List Event} {o : Object} {type : JSString}

theorem get (h : o.Stocked log) : Events.Stocked log type (elements (o.get type)) := by
  rcases o.get_cases type with hget | ⟨-, hget⟩
  · rw [hget]
    exact h type
  · rw [hget]
    exact stocked_inherited

theorem push (h : o.Stocked log) {e : Entry} (he : .registered type e ∈ log) :
    (o.push type e).Stocked log := by
  intro n
  rw [Object.items_push]
  split_ifs with hn
  · subst hn
    exact h.get.append he
  · exact h n

theorem removeListener (h : o.Stocked log) (field : ℕ → Option Fn) (listener : Fn) :
    (o.removeListener field type listener).Stocked log := by
  intro n
  rw [Object.items_removeListener]
  split_ifs
  · exact (h n).sublist List.eraseP_sublist
  · exact h n

theorem removeAllListeners (h : o.Stocked log) : (o.removeAllListeners type).Stocked log := by
  intro n
  rw [Object.items_removeAllListeners]
  split_ifs
  · exact .nil
  · exact h n

theorem create (h : o.Stocked log) : o.create.Stocked log := h

theorem listeners (h : o.Stocked log) : (o.listeners type).1.Stocked log := by
  intro n
  rw [Object.items_listeners]
  split_ifs with hn
  · subst hn
    exact h.create.get
  · exact h n

theorem setMaxListeners (h : o.Stocked log) (m : ℕ) : (o.setMaxListeners m).Stocked log := by
  intro n
  rw [Object.items_setMaxListeners]
  split_ifs
  · exact .nil
  · exact stocked_other
  · exact h n

theorem unwrap (h : o.Stocked log) (field : ℕ → Option Fn) (f : Fn) :
    (unwrap (objectHandlers field) o f : Object).Stocked log := by
  induction f generalizing o with
  | user n => exact h
  | builtin name => exact h
  | once k type listener ih => exact ih (h.removeListener field _)

end Object.Stocked

/-! ### Invariant -/

/-- What an `emit` that is going on has done and has still to do. -/
structure Emitting (log : List Event) (type : JSString) (called : List Entry)
    (pending : List Item) : Prop where
  called_ne_nil : called ≠ []
  invoked : ∀ e ∈ called, .invoked type e ∈ log
  registered : ∀ x ∈ pending, x.Registered log type

structure Sound (s : State Object) : Prop where
  stored : s.handlers.Stocked s.log
  numbered : ∀ n e, .registered n e ∈ s.log → e.call ≠ none
  adding : ∀ n e, .add n e ∈ s.stack → e.call ≠ none
  emitting : ∀ n called pending, .emit n called pending ∈ s.stack → Emitting s.log n called pending
  unanswered : ∀ r ∈ s.results, r.returned = false → r.called = []

theorem Emitting.mono {log log' : List Event} {type : JSString} {called : List Entry}
    {pending : List Item} (h : Emitting log type called pending) (hsub : log ⊆ log') :
    Emitting log' type called pending :=
  ⟨h.called_ne_nil, fun e he => hsub (h.invoked e he), fun x hx => (h.registered x hx).mono hsub⟩

theorem Sound.new : Sound State.new :=
  ⟨fun _ => .nil, nofun, nofun, nofun, nofun⟩

section
variable {s : State Object} {rest : List Frame} {type : JSString}

theorem Sound.pop (h : Sound s) {stack : List Frame} (hsub : stack ⊆ s.stack) :
    Sound { s with stack := stack } :=
  ⟨h.stored, h.numbered, fun n e hmem => h.adding n e (hsub hmem),
    fun n called pending hmem => h.emitting n called pending (hsub hmem), h.unanswered⟩

theorem Sound.unwind (h : Sound { s with stack := rest }) :
    Sound { s with stack := unwind rest } :=
  h.pop fun _ hmem => mem_of_unwind hmem

theorem Sound.result (h : Sound { s with stack := rest }) {r : Result}
    (hr : r.returned = false → r.called = []) :
    Sound { s with stack := rest, results := s.results ++ [r] } := by
  refine ⟨h.stored, h.numbered, h.adding, h.emitting, ?_⟩
  intro r' hr' hfalse
  rcases List.mem_append.mp hr' with hr' | hr'
  · exact h.unanswered r' hr' hfalse
  · obtain rfl := List.mem_singleton.mp hr'
    exact hr hfalse

/-- The log gets longer, and nothing that it is about gets lost. -/
theorem Sound.log (h : Sound { s with stack := rest }) (ev : Event) {handlers : Object}
    (hstored : handlers.Stocked (s.log ++ [ev]))
    (hnumbered : ∀ n e, ev = .registered n e → e.call ≠ none) :
    Sound { s with stack := rest, handlers := handlers, log := s.log ++ [ev] } := by
  refine ⟨hstored, ?_, h.adding, ?_, h.unanswered⟩
  · intro n e hmem
    rcases List.mem_append.mp hmem with hmem | hmem
    · exact h.numbered n e hmem
    · exact hnumbered n e (List.mem_singleton.mp hmem).symm
  · exact fun n called pending hmem =>
      (h.emitting n called pending hmem).mono (List.subset_append_left _ _)

variable (field : ℕ → Option Fn)

theorem Sound.finish (h : Sound { s with stack := rest }) :
    Sound (finish (objectHandlers field) s rest) := by
  cases rest with
  | nil => exact h
  | cons f rest =>
    cases f with
    | body => exact h
    | emit n called pending => exact h
    | add n e =>
      have hrest := h.pop (List.subset_cons_self _ rest)
      have hstored : s.handlers.Stocked (s.log ++ [.registered n e]) :=
        fun n' => (h.stored n').mono (List.subset_append_left _ _)
      refine hrest.log _ (hstored.push (by simp)) ?_
      intro n' e' heq
      obtain ⟨-, rfl⟩ := Event.registered.inj heq
      exact h.adding n e List.mem_cons_self

theorem Sound.proceed {called : List Entry} {pending : List Item}
    (h : Sound { s with stack := rest }) (hcalled : ∀ e ∈ called, .invoked type e ∈ s.log)
    (hpending : ∀ x ∈ pending.tail, x.Registered s.log type) :
    Sound (proceed (objectHandlers field) s type called rest pending) := by
  cases pending with
  | nil => exact (h.result (r := ⟨type, called, true⟩) nofun).finish field
  | cons x pending =>
    cases x with
    | other => exact h.unwind
    | fn e =>
      have hsub : s.log ⊆ s.log ++ [.invoked type e] := List.subset_append_left _ _
      have hstored : s.handlers.Stocked (s.log ++ [.invoked type e]) :=
        fun n => (h.stored n).mono hsub
      have hlog := h.log (.invoked type e) (hstored.unwrap field e.fn) nofun
      refine ⟨hlog.stored, hlog.numbered, ?_, ?_, hlog.unanswered⟩
      · intro n e' hmem
        simp only [Events.proceed, List.mem_cons, reduceCtorEq, false_or] at hmem
        exact h.adding n e' hmem
      · intro n called' pending' hmem
        simp only [Events.proceed, List.mem_cons, reduceCtorEq, false_or] at hmem
        rcases hmem with heq | hmem
        · obtain ⟨rfl, rfl, rfl⟩ := Frame.emit.inj heq
          refine ⟨by simp, fun e' he' => ?_, fun x hx => (hpending x hx).mono hsub⟩
          rcases List.mem_append.mp he' with he' | he'
          · exact hsub (hcalled e' he')
          · obtain rfl := List.mem_singleton.mp he'
            exact List.mem_append_right _ List.mem_cons_self
        · exact (h.emitting n called' pending' hmem).mono hsub

theorem Sound.emit (h : Sound { s with stack := rest }) :
    Sound (emit (objectHandlers field) s type rest) := by
  unfold Events.emit
  split
  · exact h.unwind
  · exact (h.result (r := ⟨type, [], false⟩) fun _ => rfl).finish field
  · rename_i listeners hplan
    have hget : Stocked s.log type listeners := by
      rw [Object.plan_call hplan]
      exact h.stored.get
    refine h.proceed field nofun ?_
    cases hget with
    | nil => exact nofun
    | cons first rest => exact rest

/-- `addListener` is on the stack while it emits. -/
theorem Sound.enter (h : Sound s) (type : JSString) {e : Entry} (he : e.call ≠ none) :
    Sound { s with
      handlers := s.handlers.create, calls := s.calls + 1, stack := .add type e :: s.stack } := by
  refine ⟨h.stored.create, h.numbered, ?_, ?_, h.unanswered⟩
  · intro n e' hmem
    rcases List.mem_cons.mp hmem with heq | hmem
    · obtain ⟨-, rfl⟩ := Frame.add.inj heq
      exact he
    · exact h.adding n e' hmem
  · intro n called pending hmem
    rcases List.mem_cons.mp hmem with heq | hmem
    · cases heq
    · exact h.emitting n called pending hmem

theorem Sound.addListener (h : Sound s) (type : JSString) {e : Entry} (he : e.call ≠ none) :
    Sound (addListener (objectHandlers field) s type e) :=
  Sound.emit (s := { s with handlers := s.handlers.create, calls := s.calls + 1 }) field
    (h.enter type he)

theorem Sound.perform (h : Sound s) (c : Call) : Sound (perform (objectHandlers field) s c) := by
  cases c with
  | addListener type listener => exact h.addListener field type nofun
  | once type listener =>
    have hmade : Sound { s with made := s.made ++ [.once s.calls type listener] } :=
      ⟨h.stored, h.numbered, h.adding, h.emitting, h.unanswered⟩
    exact hmade.addListener field type nofun
  | removeListener type listener =>
    exact ⟨h.stored.removeListener field listener, h.numbered, h.adding, h.emitting, h.unanswered⟩
  | removeAllListeners type =>
    exact ⟨h.stored.removeAllListeners, h.numbered, h.adding, h.emitting, h.unanswered⟩
  | listeners type =>
    have hstored : (s.handlers.listeners type).1.Stocked
        (s.log ++ [.reported type (s.handlers.listeners type).2]) :=
      fun n => (h.stored.listeners n).mono (List.subset_append_left _ _)
    exact Sound.log (h.pop (List.Subset.refl _)) _ hstored nofun
  | emit type => exact Sound.emit field h
  | setMaxListeners m =>
    exact ⟨h.stored.setMaxListeners m, h.numbered, h.adding, h.emitting, h.unanswered⟩

end

theorem Sound.step (field : ℕ → Option Fn) {s s' : State Object} {a : Action} (h : Sound s)
    (hs : step (objectHandlers field) s a = some s') : Sound s' := by
  rcases step_cases _ hs with ⟨c, -, -, rfl⟩ | ⟨type, called, pending, rest, -, hstack, rfl⟩ |
    ⟨rest, -, hstack, rfl⟩
  · exact h.perform field c
  · have hemitting := h.emitting type called pending (by simp [hstack])
    refine Sound.proceed field (h.pop ?_) hemitting.invoked
      fun x hx => hemitting.registered x (List.mem_of_mem_tail hx)
    rw [hstack]
    exact List.subset_cons_of_subset _ (List.subset_cons_self _ _)
  · refine (h.pop ?_).unwind
    rw [hstack]
    exact List.subset_cons_self _ _

/-! ### The functions that are called, and the value returned -/

/-- Only functions that were registered for the event are called, and a result says whether
there was one. -/
structure Right (log : List Event) (results : List Result) : Prop where
  invoked : ∀ n e, .invoked n e ∈ log → .registered n e ∈ log
  results : ∀ r ∈ results, (r.returned = true ↔ ∃ e ∈ r.called, .registered r.type e ∈ log)

def State.EmitsRight (s : State Object) : Prop := Right s.log s.results

/-- What `emit` finds is not an empty array, and does not begin with a function that was not
registered. -/
def Object.Fair (o : Object) (type : JSString) : Prop :=
  (type = js "error" ∨ o.get type ≠ some (.array [])) ∧
    ∀ e, (elements (o.get type)).head? = some (.fn e) → e.call ≠ none

/-- The same of the `emit` that an action starts. -/
def State.Fair (s : State Object) : Action → Prop
  | .call (.emit type) => s.handlers.Fair type
  | .call (.addListener _ _) => s.handlers.Fair (js "newListener")
  | .call (.once _ _) => s.handlers.Fair (js "newListener")
  | _ => True

section
variable {log : List Event} {results : List Result} {n type : JSString} {e : Entry}

theorem Right.registered (h : Right log results)
    (hresults : ∀ r ∈ results, r.returned = false → r.called = []) :
    Right (log ++ [.registered n e]) results := by
  constructor
  · intro n' e' hmem
    rcases List.mem_append.mp hmem with hmem | hmem
    · exact List.mem_append_left _ (h.invoked n' e' hmem)
    · simp at hmem
  · intro r hr
    cases hret : r.returned with
    | false => simp [hresults r hr hret]
    | true =>
      obtain ⟨e', he', hreg⟩ := (h.results r hr).mp hret
      exact iff_of_true rfl ⟨e', he', List.mem_append_left _ hreg⟩

theorem Right.call (h : Right log results) (he : .registered n e ∈ log) :
    Right (log ++ [.invoked n e]) results := by
  constructor
  · intro n' e' hmem
    rcases List.mem_append.mp hmem with hmem | hmem
    · exact List.mem_append_left _ (h.invoked n' e' hmem)
    · obtain ⟨rfl, rfl⟩ := Event.invoked.inj (List.mem_singleton.mp hmem)
      exact List.mem_append_left _ he
  · intro r hr
    rw [h.results r hr]
    simp

theorem Right.reported (h : Right log results) (l : List Item) :
    Right (log ++ [.reported n l]) results := by
  constructor
  · intro n' e' hmem
    have hmem' : .invoked n' e' ∈ log := by simpa using hmem
    exact List.mem_append_left _ (h.invoked n' e' hmem')
  · intro r hr
    rw [h.results r hr]
    simp

theorem Right.result (h : Right log results) {r : Result}
    (hr : r.returned = true ↔ ∃ e ∈ r.called, .registered r.type e ∈ log) :
    Right log (results ++ [r]) := by
  refine ⟨h.invoked, fun r' hr' => ?_⟩
  rcases List.mem_append.mp hr' with hr' | hr'
  · exact h.results r' hr'
  · obtain rfl := List.mem_singleton.mp hr'
    exact hr

end

section
variable {s : State Object} {rest : List Frame} {type : JSString} (field : ℕ → Option Fn)

theorem Right.finish (h : Right s.log s.results)
    (hresults : ∀ r ∈ s.results, r.returned = false → r.called = []) :
    (finish (objectHandlers field) s rest).EmitsRight := by
  cases rest with
  | nil => exact h
  | cons f rest =>
    cases f with
    | body => exact h
    | emit n called pending => exact h
    | add n e => exact h.registered hresults

theorem Right.proceed (h : Right s.log s.results)
    (hresults : ∀ r ∈ s.results, r.returned = false → r.called = []) {called : List Entry}
    {pending : List Item} (hcalled : called = [] → pending ≠ [])
    (hinvoked : ∀ e ∈ called, .invoked type e ∈ s.log)
    (hpending : ∀ e, pending.head? = some (.fn e) → .registered type e ∈ s.log) :
    (proceed (objectHandlers field) s type called rest pending).EmitsRight := by
  cases pending with
  | nil =>
    obtain ⟨e, he⟩ := List.exists_mem_of_ne_nil called fun hnil => hcalled hnil rfl
    have hresult : Right s.log (s.results ++ [⟨type, called, true⟩]) :=
      h.result (iff_of_true rfl ⟨e, he, h.invoked type e (hinvoked e he)⟩)
    refine Right.finish (s := { s with results := s.results ++ [⟨type, called, true⟩] }) field
      hresult ?_
    intro r hr hfalse
    rcases List.mem_append.mp hr with hr | hr
    · exact hresults r hr hfalse
    · rw [List.mem_singleton.mp hr] at hfalse
      cases hfalse
  | cons x pending =>
    cases x with
    | other => exact h
    | fn e => exact h.call (hpending e rfl)

theorem Object.plan_nil {o : Object} :
    o.plan type = .call [] ↔ type ≠ js "error" ∧ o.get type = some (.array []) := by
  have hfalsy : (if type = js "error" then Plan.throws else .skip) ≠ .call [] := by
    split_ifs <;> simp
  unfold Object.plan
  generalize o.get type = v
  cases v with
  | none => simp [truthy, hfalsy]
  | some v =>
    cases v with
    | array l =>
      cases l with
      | nil => simp [truthy]
      | cons x l => simp [truthy]
    | number k =>
      by_cases hk : k = 0
      · simp [truthy, hk, hfalsy]
      · simp [truthy, hk]
    | null => simp [truthy, hfalsy]
    | fn e => simp [truthy]
    | object => simp [truthy]

theorem Object.plan_head {o : Object} {e : Entry}
    (h : (elements (o.get type)).head? = some (.fn e)) :
    o.plan type = .call (elements (o.get type)) := by
  unfold Object.plan
  generalize o.get type = v at h
  cases v with
  | none => cases h
  | some v =>
    cases v with
    | array l =>
      cases l with
      | nil => cases h
      | cons x l => simp [truthy, elements]
    | number k =>
      by_cases hk : k = 0
      · simp [elements, hk] at h
      · simp [elements, hk] at h
    | null => cases h
    | fn e => simp [truthy, elements]
    | object => cases h

/-- An `emit` that starts does well in just those states. -/
theorem emit_right (h : Sound { s with stack := rest }) (hr : s.EmitsRight) :
    (emit (objectHandlers field) s type rest).EmitsRight ↔ s.handlers.Fair type := by
  have hplan : (objectHandlers field).plan s.handlers type = s.handlers.plan type := rfl
  have hsound : Sound (emit (objectHandlers field) s type rest) := h.emit field
  constructor
  · intro hright
    unfold Events.emit at hright hsound
    rw [hplan] at hright hsound
    constructor
    · by_contra hnot
      rw [not_or, not_not] at hnot
      rw [Object.plan_nil.mpr hnot] at hright
      have hmem : (⟨type, [], true⟩ : Result) ∈
          (finish (objectHandlers field) { s with results := s.results ++ [⟨type, [], true⟩] }
            rest).results := by
        rw [finish_results]
        exact List.mem_append_right _ List.mem_cons_self
      obtain ⟨e, he, -⟩ := (hright.results _ hmem).mp rfl
      exact absurd he List.not_mem_nil
    · intro e he hnone
      obtain ⟨l, hl⟩ := List.head?_eq_some_iff.mp he
      rw [Object.plan_head he, hl] at hright hsound
      have hinvoked : Event.invoked type e ∈ s.log ++ [.invoked type e] := by simp
      exact hsound.numbered type e (hright.invoked type e hinvoked) hnone
  · rintro ⟨hempty, hhead⟩
    unfold Events.emit
    split
    · exact hr
    · refine Right.finish (s := { s with results := s.results ++ [⟨type, [], false⟩] }) field
        (Right.result hr (by simp)) ?_
      exact (h.result (r := ⟨type, [], false⟩) fun _ => rfl).unanswered
    · rename_i listeners hcall
      have hlisteners := Object.plan_call hcall
      refine Right.proceed field hr h.unanswered ?_ nofun ?_
      · rintro - rfl
        obtain ⟨hne, harray⟩ := Object.plan_nil.mp hcall
        exact hempty.elim hne (· harray)
      · intro e he
        have hget : Stocked s.log type (elements (s.handlers.get type)) := h.stored.get
        rw [hlisteners] at he
        obtain ⟨l, hl⟩ := List.head?_eq_some_iff.mp he
        rw [hl] at hget
        cases hget with
        | cons first rest => exact first.resolve_right (hhead e he)

theorem Object.fair_create (o : Object) :
    o.create.Fair (js "newListener") ↔ o.Fair (js "newListener") := by
  unfold Object.Fair
  rw [Object.get_create inherited_newListener]

theorem addListener_right (h : Sound s) (hr : s.EmitsRight) {e : Entry} (he : e.call ≠ none) :
    (addListener (objectHandlers field) s type e).EmitsRight ↔
      s.handlers.Fair (js "newListener") := by
  rw [← Object.fair_create]
  unfold Events.addListener
  exact emit_right (s := { s with handlers := s.handlers.create, calls := s.calls + 1 }) field
    (h.enter type he) hr

theorem perform_right (h : Sound s) (hr : s.EmitsRight) (c : Call) :
    (perform (objectHandlers field) s c).EmitsRight ↔ s.Fair (.call c) := by
  cases c with
  | addListener type listener => exact addListener_right field h hr nofun
  | once type listener =>
    have hmade : Sound { s with made := s.made ++ [.once s.calls type listener] } :=
      ⟨h.stored, h.numbered, h.adding, h.emitting, h.unanswered⟩
    exact addListener_right field hmade hr nofun
  | removeListener type listener => exact iff_of_true hr trivial
  | removeAllListeners type => exact iff_of_true hr trivial
  | listeners type => exact iff_of_true (Right.reported hr _) trivial
  | emit type => exact emit_right field h hr
  | setMaxListeners m => exact iff_of_true hr trivial

end

theorem step_right (field : ℕ → Option Fn) {s s' : State Object} {a : Action} (h : Sound s)
    (hr : s.EmitsRight) (hs : step (objectHandlers field) s a = some s') :
    s'.EmitsRight ↔ s.Fair a := by
  rcases step_cases _ hs with ⟨c, rfl, -, rfl⟩ | ⟨type, called, pending, rest, rfl, hstack, rfl⟩ |
    ⟨rest, rfl, -, rfl⟩
  · exact perform_right field h hr c
  · have hemitting := h.emitting type called pending (by simp [hstack])
    refine iff_of_true (Right.proceed field hr h.unanswered ?_ hemitting.invoked ?_) trivial
    · exact fun hnil => absurd hnil hemitting.called_ne_nil
    · exact fun e he => hemitting.registered _ (List.mem_of_mem_head? he)
  · exact iff_of_true hr trivial

/-- In every run, each `emit` calls only functions that were registered for the event, and returns
whether it called one, up to the first that starts where `_events` has an empty array or, in
front, a function that was not registered. -/
theorem emitsRight_iff (field : ℕ → Option Fn) (as : List Action) :
    Along (step (objectHandlers field)) (fun _ _ s' => s'.EmitsRight) State.new as ↔
      Along (step (objectHandlers field)) (fun s a _ => s.Fair a) State.new as :=
  along_iff Sound.new ⟨nofun, nofun⟩ (fun _ _ _ h hs => h.step field hs)
    (fun _ _ _ h hr hs => step_right field h hr hs) as

/-- `listeners` leaves an empty array behind, and `emit` returns true for it. -/
theorem not_emitsRight_listeners : ¬ ∀ (field : ℕ → Option Fn) (as : List Action) (s : State Object),
    run (step (objectHandlers field)) State.new as = some s → s.EmitsRight := by
  intro h
  have hrun : (run (step (objectHandlers fun _ => none)) State.new
      [.call (.listeners (js "x")), .call (.emit (js "x"))]).map State.results =
      some [⟨js "x", [], true⟩] := by decide +kernel
  obtain ⟨s, hs, hresults⟩ := Option.map_eq_some_iff.mp hrun
  have hright := (h _ _ s hs).results ⟨js "x", [], true⟩ (by rw [hresults]; exact List.mem_cons_self)
  obtain ⟨e, he, -⟩ := hright.mp rfl
  exact absurd he List.not_mem_nil

end NodeJS.Events
