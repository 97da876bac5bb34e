import NodeJS.Events.Items
import NodeJS.Lib.FirstMatch

/-! How often a function registered by `once` is called. -/
namespace NodeJS.Events
open Lib

/-- A call of `once`. -/
structure Registration where
  number : ℕ
  type : JSString
  listener : Fn

namespace Registration

def wrapper (r : Registration) : Fn := .once r.number r.type r.listener

def entry (r : Registration) : Entry := ⟨r.wrapper, some r.number⟩

def item (r : Registration) : Item := .fn r.entry

end Registration

section
variable {field : ℕ → Option Fn} {r : Registration} {o o' o'' : Object} {type : JSString}

abbrev Registration.isMatch (field : ℕ → Option Fn) (r : Registration) : Item → Bool :=
  Item.matchesFn field r.wrapper

theorem Registration.isMatch_item : r.isMatch field r.item = true := by
  simp [isMatch, item, entry, Item.matchesFn, Entry.matchesFn]

theorem Registration.item_not_mem_inherited : r.item ∉ elements (inherited type) := by
  unfold inherited
  split_ifs
  · simp [elements, item, entry]
  · simp [elements, item]
  · simp [elements]

theorem mem_items_of_mem_get (h : r.item ∈ elements (o.get type)) :
    elements (o.get type) = o.items type := by
  rcases o.get_cases type with hget | ⟨-, hget⟩
  · rw [hget]
    rfl
  · rw [hget] at h
    exact absurd h r.item_not_mem_inherited

/-- Where the registration is among the handlers: nowhere new, and behind no more elements that
its wrapper might remove in its place. -/
structure Fewer (field : ℕ → Option Fn) (r : Registration) (o o' : Object) : Prop where
  mem : ∀ n, r.item ∈ o'.items n → r.item ∈ o.items n
  count : (o'.items r.type).count r.item ≤ (o.items r.type).count r.item
  before : r.item ∈ o'.items r.type →
    before (r.isMatch field) r.item (o'.items r.type) ≤
      before (r.isMatch field) r.item (o.items r.type)

theorem Fewer.refl : Fewer field r o o := ⟨fun _ => id, Nat.le_refl _, fun _ => Nat.le_refl _⟩

theorem Fewer.trans (h : Fewer field r o o') (h' : Fewer field r o' o'') : Fewer field r o o'' :=
  ⟨fun n hmem => h.mem n (h'.mem n hmem), Nat.le_trans h'.count h.count,
    fun hmem => Nat.le_trans (h'.before hmem) (h.before (h'.mem _ hmem))⟩

theorem Fewer.of_sublist (hone : (o.items r.type).count r.item ≤ 1)
    (h : ∀ n, (o'.items n).Sublist (o.items n)) : Fewer field r o o' :=
  ⟨fun n hmem => (h n).mem hmem, (h _).count_le _, fun hmem => before_sublist (h _) hmem hone⟩

/-- A list that is read, and has something appended to it. -/
theorem Fewer.of_append {l : List Item} (hl : r.item ∉ l)
    (h : ∀ n, o'.items n = if n = type then elements (o.get type) ++ l else o.items n) :
    Fewer field r o o' := by
  have hread : ∀ n, r.item ∈ o'.items n →
      r.item ∈ o.items n ∧ ∃ l', r.item ∉ l' ∧ o'.items n = o.items n ++ l' := by
    intro n hmem
    rw [h n] at hmem ⊢
    split_ifs at hmem ⊢ with hn
    · subst hn
      have hget := (List.mem_append.mp hmem).resolve_right hl
      have hitems := mem_items_of_mem_get hget
      rw [hitems] at hget ⊢
      exact ⟨hget, l, hl, rfl⟩
    · exact ⟨hmem, [], List.not_mem_nil, (List.append_nil _).symm⟩
  refine ⟨fun n hmem => (hread n hmem).1, ?_, fun hmem => ?_⟩
  · by_cases hmem : r.item ∈ o'.items r.type
    · obtain ⟨-, l', hl', heq⟩ := hread _ hmem
      have hcount : (o'.items r.type).count r.item = (o.items r.type).count r.item := by
        rw [heq, List.count_append, List.count_eq_zero_of_not_mem hl', Nat.add_zero]
      exact Nat.le_of_eq hcount
    · rw [List.count_eq_zero_of_not_mem hmem]
      exact Nat.zero_le _
  · obtain ⟨hold, l', -, heq⟩ := hread _ hmem
    rw [heq]
    exact Nat.le_of_eq (before_append hold)

theorem Fewer.push {e : Entry} (he : e ≠ r.entry) : Fewer field r o (o.push type e) := by
  have hl : r.item ∉ [.fn e] := by
    rw [List.mem_singleton]
    exact fun heq => he (Item.fn.inj heq).symm
  exact .of_append hl fun n => Object.items_push e

theorem Fewer.create : Fewer field r o o.create :=
  ⟨fun _ => id, Nat.le_refl _, fun _ => Nat.le_refl _⟩

theorem Fewer.listeners : Fewer field r o (o.listeners type).1 := by
  have hread : ∀ n, (o.listeners type).1.items n =
      if n = type then elements (o.create.get type) ++ [] else o.create.items n := by
    intro n
    rw [List.append_nil]
    exact Object.items_listeners
  exact Fewer.create.trans (.of_append List.not_mem_nil hread)

theorem Fewer.setMaxListeners (m : ℕ) : Fewer field r o (o.setMaxListeners m) := by
  have hnot : r.item ∉ (if m = 0 then [] else [Item.other]) := by
    split_ifs <;> simp [Registration.item]
  have hitems : ∀ n, r.item ∈ (o.setMaxListeners m).items n →
      (o.setMaxListeners m).items n = o.items n := by
    intro n hmem
    rw [Object.items_setMaxListeners] at hmem ⊢
    split_ifs at hmem ⊢ <;> first | rfl | simp [Registration.item] at hmem
  refine ⟨fun n hmem => ?_, ?_, fun hmem => ?_⟩
  · rw [hitems n hmem] at hmem
    exact hmem
  · by_cases hmem : r.item ∈ (o.setMaxListeners m).items r.type
    · exact Nat.le_of_eq (congrArg _ (hitems _ hmem))
    · rw [List.count_eq_zero_of_not_mem hmem]
      exact Nat.zero_le _
  · exact Nat.le_of_eq (congrArg _ (hitems _ hmem))

section
variable (hone : (o.items r.type).count r.item ≤ 1)
include hone

theorem Fewer.removeListener (listener : Fn) :
    Fewer field r o (o.removeListener field type listener) := by
  refine .of_sublist hone fun n => ?_
  rw [Object.items_removeListener]
  split_ifs
  · exact List.eraseP_sublist
  · exact List.Sublist.refl _

theorem Fewer.removeAllListeners : Fewer field r o (o.removeAllListeners type) := by
  refine .of_sublist hone fun n => ?_
  rw [Object.items_removeAllListeners]
  split_ifs
  · exact List.nil_sublist _
  · exact List.Sublist.refl _

theorem Fewer.unwrap (h : Fn) : Fewer field r o (unwrap (objectHandlers field) o h : Object) := by
  induction h generalizing o with
  | user n => exact .refl
  | builtin name => exact .refl
  | once k type listener ih =>
    have hremove : Fewer field r o (o.removeListener field type (.once k type listener)) :=
      .removeListener hone _
    exact hremove.trans (ih (Nat.le_trans hremove.count hone))

/-- The wrapper removes the first element that it matches. -/
theorem before_unwrap_wrapper
    (hmem : r.item ∈ (unwrap (objectHandlers field) o r.wrapper : Object).items r.type) :
    before (r.isMatch field) r.item
        ((unwrap (objectHandlers field) o r.wrapper : Object).items r.type) + 1 ≤
      before (r.isMatch field) r.item (o.items r.type) := by
  have hremove : Fewer field r o (o.removeListener field r.type r.wrapper) :=
    .removeListener hone _
  have hrest : Fewer field r (o.removeListener field r.type r.wrapper)
      (unwrap (objectHandlers field) (o.removeListener field r.type r.wrapper) r.listener : Object) :=
    .unwrap (Nat.le_trans hremove.count hone) _
  have hmem' := hrest.mem _ hmem
  have hbefore := hrest.before hmem
  rw [Object.items_removeListener, if_pos rfl] at hmem' hbefore
  rw [← before_eraseP r.isMatch_item hmem' hone]
  exact Nat.succ_le_succ hbefore

/-- So does a function that calls it. -/
theorem before_unwrap (hfield : ∀ n, field n ≠ some r.wrapper) {e : Entry}
    (he : e.matchesFn field r.wrapper = true)
    (hmem : r.item ∈ (unwrap (objectHandlers field) o e.fn : Object).items r.type) :
    before (r.isMatch field) r.item
        ((unwrap (objectHandlers field) o e.fn : Object).items r.type) + 1 ≤
      before (r.isMatch field) r.item (o.items r.type) := by
  simp only [Entry.matchesFn, decide_eq_true_eq] at he
  generalize e.fn = h at he hmem ⊢
  rcases he with rfl | he
  · exact before_unwrap_wrapper hone hmem
  · cases h with
    | user n => exact absurd he (hfield n)
    | builtin name => cases he
    | once k type listener =>
      obtain rfl : listener = r.wrapper := Option.some.inj he
      have hremove : Fewer field r o (o.removeListener field type (.once k type r.wrapper)) :=
        .removeListener hone _
      have hrest := before_unwrap_wrapper (Nat.le_trans hremove.count hone) hmem
      have hmem' := (Fewer.unwrap (Nat.le_trans hremove.count hone) r.wrapper).mem _ hmem
      exact Nat.le_trans hrest (hremove.before hmem')

end

end

/-! ### Invariant -/

def Event.invokes (e : Entry) : Event → Bool
  | .invoked _ e' => e' = e
  | _ => false

/-- It has been added, and has not been called. -/
structure Live (r : Registration) (log : List Event) : Prop where
  registered : .registered r.type r.entry ∈ log
  invoked : log.countP (Event.invokes r.entry) = 0

/-- An `emit` that has the registration still to call. If it is among the handlers as well, its
turn comes before it could be mistaken for another. -/
structure Awaiting (field : ℕ → Option Fn) (r : Registration) (o : Object) (log : List Event)
    (pending : List Item) : Prop where
  live : Live r log
  once : pending.count r.item ≤ 1
  before : r.item ∈ o.items r.type →
    before (r.isMatch field) r.item (o.items r.type) ≤ before (r.isMatch field) r.item pending

/-- The registration is in one place at a time, and is called once. -/
structure Single (field : ℕ → Option Fn) (r : Registration) (s : State Object) : Prop where
  early : s.calls ≤ r.number →
    r.wrapper ∉ s.made ∧ .add r.type r.entry ∉ s.stack ∧ .registered r.type r.entry ∉ s.log
  add_type : ∀ n, .add n r.entry ∈ s.stack → n = r.type
  adding : .add r.type r.entry ∈ s.stack → .registered r.type r.entry ∉ s.log
  adding_once : s.stack.count (.add r.type r.entry) ≤ 1
  stored : ∀ n, r.item ∈ s.handlers.items n → n = r.type ∧ Live r s.log
  stored_once : (s.handlers.items r.type).count r.item ≤ 1
  awaited : ∀ n called pending, .emit n called pending ∈ s.stack → r.item ∈ pending →
    Awaiting field r s.handlers s.log pending
  invoked : .registered r.type r.entry ∉ s.log → s.log.countP (Event.invokes r.entry) = 0
  invoked_once : s.log.countP (Event.invokes r.entry) ≤ 1

theorem Single.new (field : ℕ → Option Fn) (r : Registration) : Single field r State.new := by
  refine ⟨fun _ => ⟨List.not_mem_nil, List.not_mem_nil, List.not_mem_nil⟩, nofun, nofun, ?_, nofun,
    ?_, nofun, fun _ => rfl, ?_⟩
  all_goals exact Nat.zero_le _

section
variable {field : ℕ → Option Fn} {r : Registration} {s : State Object} {rest : List Frame}
  {type : JSString}

/-- Two logs that say the same of the registration. -/
structure SameFor (r : Registration) (log log' : List Event) : Prop where
  registered : .registered r.type r.entry ∈ log' ↔ .registered r.type r.entry ∈ log
  invoked : log'.countP (Event.invokes r.entry) = log.countP (Event.invokes r.entry)

theorem SameFor.refl {log : List Event} : SameFor r log log := ⟨Iff.rfl, rfl⟩

theorem SameFor.append {log : List Event} {ev : Event} (hreg : ev ≠ .registered r.type r.entry)
    (hinv : ev.invokes r.entry = false) : SameFor r log (log ++ [ev]) := by
  constructor
  · rw [List.mem_append, List.mem_singleton]
    exact or_iff_left (Ne.symm hreg)
  · rw [List.countP_append, List.countP_singleton, hinv]
    rfl

theorem Live.same {log log' : List Event} (h : Live r log) (hlog : SameFor r log log') :
    Live r log' :=
  ⟨hlog.registered.mpr h.registered, hlog.invoked.trans h.invoked⟩

/-- Handlers are taken away and others added, and the log tells of others. -/
theorem Single.update (h : Single field r s) {o : Object} {log : List Event}
    (hfewer : Fewer field r s.handlers o) (hlog : SameFor r s.log log) :
    Single field r { s with handlers := o, log := log } := by
  refine ⟨?_, h.add_type, ?_, h.adding_once, ?_, Nat.le_trans hfewer.count h.stored_once, ?_, ?_, ?_⟩
  · intro hcalls
    obtain ⟨hmade, hstack, hreg⟩ := h.early hcalls
    exact ⟨hmade, hstack, fun hmem => hreg (hlog.registered.mp hmem)⟩
  · exact fun hmem hreg => h.adding hmem (hlog.registered.mp hreg)
  · intro n hmem
    obtain ⟨hn, hlive⟩ := h.stored n (hfewer.mem n hmem)
    exact ⟨hn, hlive.same hlog⟩
  · intro n called pending hframe hmem
    have hawait := h.awaited n called pending hframe hmem
    refine ⟨hawait.live.same hlog, hawait.once, fun hitem => ?_⟩
    exact Nat.le_trans (hfewer.before hitem) (hawait.before (hfewer.mem _ hitem))
  · intro hreg
    rw [hlog.invoked]
    exact h.invoked fun hmem => hreg (hlog.registered.mpr hmem)
  · rw [hlog.invoked]
    exact h.invoked_once

/-- Calls that have ended. -/
theorem Single.pop (h : Single field r s) {stack : List Frame} (hsub : stack.Sublist s.stack) :
    Single field r { s with stack := stack } :=
  ⟨fun hcalls => ⟨(h.early hcalls).1, fun hmem => (h.early hcalls).2.1 (hsub.mem hmem),
      (h.early hcalls).2.2⟩,
    fun n hmem => h.add_type n (hsub.mem hmem), fun hmem => h.adding (hsub.mem hmem),
    Nat.le_trans (hsub.count_le _) h.adding_once, h.stored, h.stored_once,
    fun n called pending hmem => h.awaited n called pending (hsub.mem hmem),
    h.invoked, h.invoked_once⟩

theorem unwind_sublist : ∀ stack : List Frame, (unwind stack).Sublist stack
  | [] => List.Sublist.refl _
  | .body :: _ => List.Sublist.refl _
  | .emit _ _ _ :: rest => (unwind_sublist rest).cons _
  | .add _ _ :: rest => (unwind_sublist rest).cons _

theorem Single.unwind (h : Single field r { s with stack := rest }) :
    Single field r { s with stack := unwind rest } :=
  h.pop (unwind_sublist rest)

/-- `addListener` puts it among the handlers. -/
theorem Single.push (h : Single field r { s with stack := .add r.type r.entry :: rest }) :
    Single field r { s with
      handlers := s.handlers.push r.type r.entry, stack := rest,
      log := s.log ++ [.registered r.type r.entry] } := by
  have hnot := h.adding List.mem_cons_self
  have hstored : ∀ n, r.item ∉ s.handlers.items n := fun n hmem => hnot (h.stored n hmem).2.registered
  have hstack : .add r.type r.entry ∉ rest := by
    have honce := h.adding_once
    rw [List.count_cons_self] at honce
    exact List.count_eq_zero.mp (by omega)
  have hcount : (s.log ++ [Event.registered r.type r.entry]).countP (Event.invokes r.entry) = 0 := by
    rw [List.countP_append, h.invoked hnot]
    rfl
  have hlive : Live r (s.log ++ [Event.registered r.type r.entry]) := ⟨by simp, hcount⟩
  have hget : r.item ∉ elements (s.handlers.get r.type) := by
    intro hmem
    have hitems := mem_items_of_mem_get hmem
    rw [hitems] at hmem
    exact hstored _ hmem
  have hcalls : ¬ s.calls ≤ r.number := fun hcalls => (h.early hcalls).2.1 List.mem_cons_self
  refine ⟨fun hle => absurd hle hcalls, fun n hmem => h.add_type n (List.mem_cons_of_mem _ hmem),
    fun hmem => absurd hmem hstack, ?_, ?_, ?_, ?_, ?_, ?_⟩
  · rw [List.count_eq_zero_of_not_mem hstack]
    exact Nat.zero_le _
  · intro n hmem
    rw [Object.items_push] at hmem
    split_ifs at hmem with hn
    · exact ⟨hn, hlive⟩
    · exact absurd hmem (hstored n)
  · rw [Object.items_push, if_pos rfl, List.count_append, List.count_eq_zero_of_not_mem hget]
    have hself : List.count r.item [.fn r.entry] = 1 := List.count_singleton_self
    omega
  · intro n called pending hframe hitem
    have hawait := h.awaited n called pending (List.mem_cons_of_mem _ hframe) hitem
    exact absurd hawait.live.registered hnot
  · exact fun hreg => absurd hlive.registered hreg
  · rw [hcount]
    exact Nat.zero_le _

theorem Single.finish (h : Single field r { s with stack := rest }) :
    Single field r (finish (objectHandlers field) s rest) := by
  cases rest with
  | nil => exact h.pop (List.Sublist.refl _)
  | cons fr rest =>
    cases fr with
    | body => exact h.pop (List.Sublist.refl _)
    | emit n called pending => exact h.pop (List.Sublist.refl _)
    | add n e =>
      by_cases he : e = r.entry
      · subst he
        obtain rfl : n = r.type := h.add_type n List.mem_cons_self
        exact h.push
      · have hlog : SameFor r s.log (s.log ++ [Event.registered n e]) :=
          .append (fun heq => he (Event.registered.inj heq).2) rfl
        exact (h.pop (List.sublist_cons_self _ _)).update (.push he) hlog

theorem Single.results (h : Single field r s) (results : List Result) :
    Single field r { s with results := results } :=
  ⟨h.early, h.add_type, h.adding, h.adding_once, h.stored, h.stored_once, h.awaited, h.invoked,
    h.invoked_once⟩

/-- The listener whose turn it is, when it is another one. -/
theorem Single.call_other (hfield : ∀ n, field n ≠ some r.wrapper) {called : List Entry}
    {pending : List Item} {e : Entry} (he : e ≠ r.entry)
    (h : Single field r { s with stack := .emit type called (.fn e :: pending) :: rest }) :
    Single field r (proceed (objectHandlers field) s type called rest (.fn e :: pending)) := by
  have hrest := h.pop (List.sublist_cons_self _ rest)
  have hlog : SameFor r s.log (s.log ++ [Event.invoked type e]) :=
    .append (by simp) (by simp [Event.invokes, he])
  have hfewer : Fewer field r s.handlers (unwrap (objectHandlers field) s.handlers e.fn) :=
    .unwrap h.stored_once _
  have hnew := hrest.update hfewer hlog
  have hne : Item.fn e ≠ r.item := fun heq => he (Item.fn.inj heq)
  refine ⟨?_, ?_, ?_, ?_, hnew.stored, hnew.stored_once, ?_, hnew.invoked, hnew.invoked_once⟩
  · intro hcalls
    obtain ⟨hmade, hstack, hreg⟩ := hnew.early hcalls
    exact ⟨hmade, by simpa [proceed] using hstack, hreg⟩
  · intro n hmem
    exact hnew.add_type n (by simpa [proceed] using hmem)
  · intro hmem
    exact hnew.adding (by simpa [proceed] using hmem)
  · have hcount := hnew.adding_once
    simpa [proceed, List.count_cons] using hcount
  · intro n called' pending' hframe hitem
    simp only [proceed, List.mem_cons, reduceCtorEq, false_or] at hframe
    rcases hframe with heq | hframe
    · obtain ⟨rfl, rfl, rfl⟩ := Frame.emit.inj heq
      have hawait := h.awaited n called (.fn e :: pending') List.mem_cons_self
        (List.mem_cons_of_mem _ hitem)
      refine ⟨hawait.live.same hlog, count_le_of_cons hawait.once, fun hstored => ?_⟩
      have hbefore := hawait.before (hfewer.mem _ hstored)
      rw [before_cons_of_ne hne] at hbefore
      split_ifs at hbefore with hm
      · have hstrict := before_unwrap h.stored_once hfield hm hstored
        have hle := Nat.le_trans hstrict hbefore
        exact Nat.le_of_succ_le_succ hle
      · exact Nat.le_trans (hfewer.before hstored) hbefore
    · exact hnew.awaited n called' pending' hframe hitem

/-- Its own turn, when no other `emit` has it to call. -/
theorem Single.call_self {called : List Entry} {pending : List Item}
    (h : Single field r { s with stack := .emit type called (r.item :: pending) :: rest })
    (hlone : ∀ n called pending, .emit n called pending ∈ rest → r.item ∉ pending) :
    Single field r (proceed (objectHandlers field) s type called rest (r.item :: pending)) := by
  have hawait := h.awaited type called _ List.mem_cons_self List.mem_cons_self
  have honce := hawait.once
  have hbefore := hawait.before
  rw [before_cons_self] at hbefore
  rw [List.count_cons_self] at honce
  have hpending : r.item ∉ pending := List.count_eq_zero.mp (by omega)
  have hfewer : Fewer field r s.handlers (unwrap (objectHandlers field) s.handlers r.wrapper) :=
    .unwrap h.stored_once _
  have hnone : ∀ n, r.item ∉
      (unwrap (objectHandlers field) s.handlers r.wrapper : Object).items n := by
    intro n hmem
    obtain ⟨rfl, -⟩ := h.stored n (hfewer.mem n hmem)
    have hstrict := before_unwrap_wrapper h.stored_once hmem
    have hzero := hbefore (hfewer.mem _ hmem)
    omega
  have hreg : .registered r.type r.entry ∈ s.log ++ [.invoked type r.entry] :=
    List.mem_append_left _ hawait.live.registered
  have hcalls : ¬ s.calls ≤ r.number :=
    fun hcalls => (h.early hcalls).2.2 hawait.live.registered
  have hadd : .add r.type r.entry ∉ rest :=
    fun hmem => h.adding (List.mem_cons_of_mem _ hmem) hawait.live.registered
  refine ⟨fun hle => absurd hle hcalls, ?_, ?_, ?_, fun n hmem => absurd hmem (hnone n), ?_, ?_,
    fun hnot => absurd hreg hnot, ?_⟩
  · intro n hmem
    exact h.add_type n (List.mem_cons_of_mem _ (by simpa [proceed, Registration.item] using hmem))
  · intro hmem
    exact absurd (by simpa [proceed, Registration.item] using hmem) hadd
  · have hcount := h.adding_once
    simpa [proceed, Registration.item, List.count_cons] using hcount
  · exact Nat.le_trans hfewer.count h.stored_once
  · intro n called' pending' hframe hitem
    simp only [proceed, Registration.item, List.mem_cons, reduceCtorEq, false_or] at hframe
    rcases hframe with heq | hframe
    · obtain ⟨rfl, rfl, rfl⟩ := Frame.emit.inj heq
      exact absurd hitem hpending
    · exact absurd hitem (hlone n called' pending' hframe)
  · have hcount : (s.log ++ [Event.invoked type r.entry]).countP (Event.invokes r.entry) = 1 := by
      rw [List.countP_append, hawait.live.invoked, List.countP_singleton]
      simp [Event.invokes]
    exact Nat.le_of_eq hcount

/-- The next element of the list, of which no other `emit` has it to call if it is the
registration. -/
theorem Single.proceed (hfield : ∀ n, field n ≠ some r.wrapper) {called : List Entry}
    {pending : List Item} (h : Single field r { s with stack := .emit type called pending :: rest })
    (hlone : pending.head? = some r.item →
      ∀ n called pending, .emit n called pending ∈ rest → r.item ∉ pending) :
    Single field r (proceed (objectHandlers field) s type called rest pending) := by
  cases pending with
  | nil =>
    have hrest := (h.pop (List.sublist_cons_self _ rest)).results
      (s.results ++ [⟨type, called, true⟩])
    exact Single.finish (s := { s with results := s.results ++ [⟨type, called, true⟩] }) hrest
  | cons x pending =>
    cases x with
    | other => exact (h.pop (List.sublist_cons_self _ rest)).unwind
    | fn e =>
      by_cases he : e = r.entry
      · subst he
        exact h.call_self (hlone rfl)
      · exact h.call_other hfield he

/-- An `emit` starts with what it finds among the handlers. -/
theorem Single.start (h : Single field r { s with stack := rest }) {listeners : List Item}
    (hplan : s.handlers.plan type = .call listeners) :
    Single field r { s with stack := .emit type [] listeners :: rest } := by
  have hlisteners := Object.plan_call hplan
  refine ⟨?_, ?_, ?_, ?_, h.stored, h.stored_once, ?_, h.invoked, h.invoked_once⟩
  · intro hcalls
    obtain ⟨hmade, hstack, hreg⟩ := h.early hcalls
    exact ⟨hmade, by simpa using hstack, hreg⟩
  · intro n hmem
    exact h.add_type n (by simpa using hmem)
  · intro hmem
    exact h.adding (by simpa using hmem)
  · have hcount := h.adding_once
    simpa [List.count_cons] using hcount
  · intro n called pending hframe hitem
    rcases List.mem_cons.mp hframe with heq | hframe
    · obtain ⟨rfl, rfl, rfl⟩ := Frame.emit.inj heq
      rw [hlisteners] at hitem ⊢
      have hitems := mem_items_of_mem_get hitem
      rw [hitems] at hitem ⊢
      obtain ⟨rfl, hlive⟩ := h.stored _ hitem
      exact ⟨hlive, h.stored_once, fun _ => Nat.le_refl _⟩
    · exact h.awaited n called pending hframe hitem

def Plan.first : Plan → Option Item
  | .call listeners => listeners.head?
  | _ => none

theorem Single.emit (hfield : ∀ n, field n ≠ some r.wrapper)
    (h : Single field r { s with stack := rest })
    (hlone : (s.handlers.plan type).first = some r.item →
      ∀ n called pending, .emit n called pending ∈ rest → r.item ∉ pending) :
    Single field r (emit (objectHandlers field) s type rest) := by
  have hplan : (objectHandlers field).plan s.handlers type = s.handlers.plan type := rfl
  unfold Events.emit
  rw [hplan]
  cases hcall : s.handlers.plan type with
  | throws => exact h.unwind
  | skip =>
    have hrest := h.results (s.results ++ [⟨type, [], false⟩])
    exact Single.finish (s := { s with results := s.results ++ [⟨type, [], false⟩] }) hrest
  | call listeners =>
    rw [hcall] at hlone
    exact (h.start hcall).proceed hfield hlone

/-- `addListener` is on the stack while it emits. -/
theorem Single.enter (h : Single field r s) {made : List Fn} {e : Entry}
    (hmade : s.calls + 1 ≤ r.number → r.wrapper ∉ made)
    (he : e = r.entry → type = r.type ∧ s.calls = r.number) :
    Single field r { s with
      handlers := s.handlers.create, calls := s.calls + 1, made := made,
      stack := .add type e :: s.stack } := by
  have hnew : e = r.entry → s.stack.count (.add r.type r.entry) = 0 ∧
      .registered r.type r.entry ∉ s.log := by
    intro heq
    obtain ⟨-, hstack, hreg⟩ := h.early (Nat.le_of_eq (he heq).2)
    exact ⟨List.count_eq_zero_of_not_mem hstack, hreg⟩
  have hcreate : Single field r { s with handlers := s.handlers.create } := h.update .create .refl
  refine ⟨?_, ?_, ?_, ?_, h.stored, h.stored_once, ?_, h.invoked, h.invoked_once⟩
  · intro hcalls
    obtain ⟨-, hstack, hreg⟩ := h.early (Nat.le_of_succ_le hcalls)
    refine ⟨hmade hcalls, fun hmem => ?_, hreg⟩
    rcases List.mem_cons.mp hmem with heq | hmem
    · have hnumber := (he (Frame.add.inj heq).2.symm).2
      dsimp only at hcalls
      omega
    · exact hstack hmem
  · intro n hmem
    rcases List.mem_cons.mp hmem with heq | hmem
    · obtain ⟨rfl, hentry⟩ := Frame.add.inj heq
      exact (he hentry.symm).1
    · exact h.add_type n hmem
  · intro hmem
    rcases List.mem_cons.mp hmem with heq | hmem
    · exact (hnew (Frame.add.inj heq).2.symm).2
    · exact h.adding hmem
  · by_cases heq : e = r.entry
    · have hcount := (hnew heq).1
      rw [List.count_cons, hcount]
      split_ifs <;> simp
    · have hne : Frame.add type e ≠ .add r.type r.entry := fun hf => heq (Frame.add.inj hf).2
      rw [List.count_cons_of_ne hne]
      exact h.adding_once
  · intro n called pending hframe
    rcases List.mem_cons.mp hframe with heq | hframe
    · cases heq
    · exact hcreate.awaited n called pending hframe

end

/-! ### Runs -/

/-- If the element is a function registered by `once`, no `emit` among the calls still has that
registration to call. -/
def Unawaited (stack : List Frame) (x : Option Item) : Prop :=
  ∀ r : Registration, x = some r.item →
    ∀ n called pending, .emit n called pending ∈ stack → r.item ∉ pending

/-- What an action calls is not awaited by an `emit` further out. -/
def State.Lone (s : State Object) : Action → Prop
  | .call (.emit type) => Unawaited s.stack (s.handlers.plan type).first
  | .call (.addListener _ _) => Unawaited s.stack (s.handlers.plan (js "newListener")).first
  | .call (.once _ _) => Unawaited s.stack (s.handlers.plan (js "newListener")).first
  | .ret =>
    match s.stack with
    | .body :: .emit _ _ pending :: rest => Unawaited rest pending.head?
    | _ => True
  | _ => True

section
variable {field : ℕ → Option Fn} {r : Registration} {s s' : State Object}
  (hfield : ∀ n, field n ≠ some r.wrapper)
include hfield

theorem Single.addListener (h : Single field r s) {made : List Fn} {type : JSString} {e : Entry}
    (hmade : s.calls + 1 ≤ r.number → r.wrapper ∉ made)
    (he : e = r.entry → type = r.type ∧ s.calls = r.number)
    (hlone : Unawaited s.stack (s.handlers.plan (js "newListener")).first) :
    Single field r (addListener (objectHandlers field) { s with made := made } type e) := by
  unfold Events.addListener
  refine Single.emit (s := { s with
    made := made, handlers := s.handlers.create, calls := s.calls + 1 }) hfield (h.enter hmade he) ?_
  intro hfirst n called pending hframe
  have hplan : s.handlers.create.plan (js "newListener") = s.handlers.plan (js "newListener") :=
    Object.plan_create inherited_newListener
  dsimp only at hfirst
  rw [hplan] at hfirst
  rcases List.mem_cons.mp hframe with heq | hframe
  · cases heq
  · exact hlone r hfirst n called pending hframe

theorem Single.perform (h : Single field r s) {c : Call} (hvalid : c.Valid s.made)
    (hlone : s.Lone (.call c)) : Single field r (perform (objectHandlers field) s c) := by
  cases c with
  | addListener type listener =>
    refine h.addListener hfield (fun hcalls => (h.early (Nat.le_of_succ_le hcalls)).1) ?_ hlone
    intro heq
    obtain ⟨hfn, hcall⟩ := Entry.mk.inj heq
    have hnumber : s.calls = r.number := Option.some.inj hcall
    have hexists : r.wrapper ∈ s.made := by
      have hlistener := hvalid.1
      rw [hfn] at hlistener
      exact hlistener
    exact absurd hexists (h.early (Nat.le_of_eq hnumber)).1
  | once type listener =>
    refine h.addListener hfield ?_ ?_ hlone
    · intro hcalls hmem
      rcases List.mem_append.mp hmem with hmem | hmem
      · exact (h.early (Nat.le_of_succ_le hcalls)).1 hmem
      · obtain ⟨hnumber, -⟩ := Fn.once.inj (List.mem_singleton.mp hmem)
        omega
    · intro heq
      obtain ⟨hfn, -⟩ := Entry.mk.inj heq
      obtain ⟨hnumber, htype, -⟩ := Fn.once.inj hfn
      exact ⟨htype, hnumber⟩
  | removeListener type listener => exact h.update (.removeListener h.stored_once _) .refl
  | removeAllListeners type => exact h.update (.removeAllListeners h.stored_once) .refl
  | listeners type => exact h.update .listeners (.append (by simp) rfl)
  | emit type => exact Single.emit hfield h (hlone r)
  | setMaxListeners m => exact h.update (.setMaxListeners m) .refl

theorem Single.step (h : Single field r s) {a : Action} (hlone : s.Lone a)
    (hs : step (objectHandlers field) s a = some s') : Single field r s' := by
  rcases step_cases _ hs with ⟨c, rfl, hvalid, rfl⟩ |
    ⟨type, called, pending, rest, rfl, hstack, rfl⟩ | ⟨rest, rfl, hstack, rfl⟩
  · exact h.perform hfield hvalid hlone
  · simp only [State.Lone, hstack] at hlone
    refine Single.proceed hfield (h.pop ?_) (hlone r)
    rw [hstack]
    exact List.sublist_cons_self _ _
  · refine (h.pop ?_).unwind
    rw [hstack]
    exact List.sublist_cons_self _ _

end

/-- In every run in which no wrapper is called while an `emit` further out has the same
registration still to call, and no function has a wrapper as its `listener`, what `once` registers
is called at most once. -/
theorem invoked_le_one (field : ℕ → Option Fn)
    (hfield : ∀ n (r : Registration), field n ≠ some r.wrapper) (s : State Object)
    (h : Reach (step (objectHandlers field)) State.Lone State.new s) (r : Registration) :
    s.log.countP (Event.invokes r.entry) ≤ 1 := by
  have hsingle : Single field r s := h.invariant (Single.new field r) fun s a s' hs hlone hstep =>
    hs.step (fun n => hfield n r) hlone hstep
  exact hsingle.invoked_once

theorem invoked_le_one_emit : ∃ s : State Object,
    s.log.countP (Event.invokes ⟨.once 0 (js "x") (.user 0), some 0⟩) = 1 ∧
      ∀ r : Registration, s.log.countP (Event.invokes r.entry) ≤ 1 := by
  have hcalls : (run (step (objectHandlers fun _ => none)) State.new
      [.call (.once (js "x") (.user 0)), .call (.emit (js "x"))]).map (fun s =>
        s.log.countP (Event.invokes ⟨.once 0 (js "x") (.user 0), some 0⟩)) = some 1 := by
    decide +kernel
  have hstack : (step (objectHandlers fun _ => none) State.new
      (.call (.once (js "x") (.user 0)))).map State.stack = some [] := by decide +kernel
  obtain ⟨s, hs, hcount⟩ := Option.map_eq_some_iff.mp hcalls
  obtain ⟨s₁, h₁, hs⟩ := Option.bind_eq_some_iff.mp hs
  obtain ⟨s₂, h₂, hs⟩ := Option.bind_eq_some_iff.mp hs
  obtain rfl : s₂ = s := Option.some.inj hs
  rw [h₁] at hstack
  have hempty : s₁.stack = [] := Option.some.inj hstack
  have hlone : s₁.Lone (.call (.emit (js "x"))) := by
    intro r _ n called pending hmem
    rw [hempty] at hmem
    exact absurd hmem List.not_mem_nil
  have hreach : Reach (step (objectHandlers fun _ => none)) State.Lone State.new s₁ :=
    .single ⟨.call (.once (js "x") (.user 0)),
      fun _ _ _ _ _ hmem => absurd hmem List.not_mem_nil, h₁⟩
  refine ⟨s₂, hcount, invoked_le_one _ (fun _ _ h => ?_) s₂ (hreach.tail ⟨_, hlone, h₂⟩)⟩
  cases h

/-- The first listener emits the event again: the second is called by that `emit`, then by the
one that was going on. -/
theorem invoked_twice_nested : ¬ ∀ (field : ℕ → Option Fn) (as : List Action) (s : State Object),
    run (step (objectHandlers field)) State.new as = some s →
      ∀ r : Registration, s.log.countP (Event.invokes r.entry) ≤ 1 := by
  intro h
  have hrun : (run (step (objectHandlers fun _ => none)) State.new
      [.call (.addListener (js "x") (.user 0)), .call (.once (js "x") (.user 1)),
        .call (.emit (js "x")), .call (.emit (js "x")), .ret, .ret, .ret]).map (fun s =>
          s.log.countP (Event.invokes ⟨.once 1 (js "x") (.user 1), some 1⟩)) = some 2 := by
    decide +kernel
  obtain ⟨s, hs, hcount⟩ := Option.map_eq_some_iff.mp hrun
  have hle := h _ _ s hs ⟨1, js "x", .user 1⟩
  have htwo : s.log.countP (Event.invokes (Registration.entry ⟨1, js "x", .user 1⟩)) = 2 := hcount
  omega

end NodeJS.Events
