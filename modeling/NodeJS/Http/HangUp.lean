import NodeJS.Http.Dispatch

/-! What a request of an agent has been told when its socket closes. -/
namespace NodeJS.Agent
open Lib Desk
variable {s s' s'' : State} {r c : ℕ}

/-- The events that come with a response in `res`. -/
def State.Answered (s : State) (r : ℕ) : Prop :=
  .response r ∈ s.events ∨ .continued r ∈ s.events ∨ .upgrade r ∈ s.events

def Event.answers : Event → Option ℕ
  | .response r | .continued r | .upgrade r => some r
  | .abort _ | .aborted _ | .error _ | .complete _ => none

theorem answered_iff : s.Answered r ↔ ∃ e ∈ s.events, e.answers = some r := by
  constructor
  · rintro (h | h | h)
    all_goals exact ⟨_, h, rfl⟩
  · rintro ⟨e, he, heq⟩
    cases e with
    | response i =>
      obtain rfl := Option.some.inj heq
      exact .inl he
    | continued i =>
      obtain rfl := Option.some.inj heq
      exact .inr (.inl he)
    | upgrade i =>
      obtain rfl := Option.some.inj heq
      exact .inr (.inr he)
    | abort | aborted | error | complete => cases heq

/-- `res` and `_hadError` agree with what was emitted. -/
structure Told (s : State) : Prop where
  res : ∀ r, (s.request r).res = true ↔ s.Answered r
  blamed : Blamed s
  errored : ∀ c r, .errored c (some r) ∈ s.stack → .error r ∈ s.events
  born : ∀ r, (s.request r).res = true → r < s.requests

/-- No response comes between `s` and `s'`. -/
structure Mute (s s' : State) : Prop where
  res : ∀ r, (s'.request r).res = (s.request r).res
  requests : s.requests ≤ s'.requests
  answered : ∀ r, s'.Answered r ↔ s.Answered r
  events : ∀ e ∈ s.events, e ∈ s'.events
  hadError : ∀ r, (s'.request r).hadError = true →
    (s.request r).hadError = true ∨ .error r ∈ s'.events
  errored : ∀ c r, .errored c (some r) ∈ s'.stack →
    .errored c (some r) ∈ s.stack ∨ .error r ∈ s'.events

theorem Told.mute (h : Told s) (hm : Mute s s') : Told s' := by
  refine ⟨?_, ?_, ?_, ?_⟩
  · intro r
    rw [hm.res, hm.answered]
    exact h.res r
  · intro r hr
    rcases hm.hadError r hr with hr | hr
    · exact hm.events _ (h.blamed r hr)
    · exact hr
  · intro c r hf
    rcases hm.errored c r hf with hf | hf
    · exact hm.events _ (h.errored c r hf)
    · exact hf
  · intro r hr
    rw [hm.res] at hr
    exact Nat.lt_of_lt_of_le (h.born r hr) hm.requests

theorem Mute.trans (h : Mute s s') (h' : Mute s' s'') : Mute s s'' := by
  refine ⟨fun r => (h'.res r).trans (h.res r), Nat.le_trans h.requests h'.requests,
    fun r => (h'.answered r).trans (h.answered r), fun e he => h'.events e (h.events e he), ?_, ?_⟩
  · intro r hr
    rcases h'.hadError r hr with hr | hr
    · exact (h.hadError r hr).imp_right (h'.events _)
    · exact .inr hr
  · intro c r hf
    rcases h'.errored c r hf with hf | hf
    · exact (h.errored c r hf).imp_right (h'.events _)
    · exact .inr hf

/-! ### The small updates -/

/-- What touches neither requests nor events, and puts on the stack only frames whose error was
emitted. -/
theorem mute_of_eq (hreq : s'.request = s.request) (hcount : s'.requests = s.requests)
    (hev : s'.events = s.events)
    (hstack : ∀ c r, .errored c (some r) ∈ s'.stack →
      .errored c (some r) ∈ s.stack ∨ .error r ∈ s.events) : Mute s s' := by
  refine ⟨fun r => by rw [hreq], Nat.le_of_eq hcount.symm, fun r => ?_, fun e he => hev ▸ he,
    fun r hr => ?_, ?_⟩
  · rw [answered_iff, answered_iff, hev]
  · rw [hreq] at hr
    exact .inl hr
  · rw [hev]
    exact hstack

theorem mute_setSocket (s : State) (c : ℕ) (f : Socket → Socket) : Mute s (s.setSocket c f) :=
  mute_of_eq rfl rfl rfl fun _ _ hf => .inl hf

theorem mute_removeSocket (s : State) (c : ℕ) : Mute s (s.removeSocket c) := by
  rw [removeSocket_eq]
  exact mute_of_eq rfl rfl rfl fun _ _ hf => .inl hf

theorem mute_setRequest (s : State) (r : ℕ) (f : ClientRequest → ClientRequest)
    (hres : (f (s.request r)).res = (s.request r).res)
    (herr : (f (s.request r)).hadError = true →
      (s.request r).hadError = true ∨ .error r ∈ s.events) : Mute s (s.setRequest r f) := by
  refine ⟨fun i => ?_, Nat.le_refl _, fun i => Iff.rfl, fun e he => he, fun i hi => ?_,
    fun c i hf => .inl hf⟩
  · by_cases h : i = r
    · rw [h, State.request_setRequest, hres]
    · rw [State.request_setRequest_of_ne s h]
  · by_cases h : i = r
    · rw [h, State.request_setRequest] at hi
      exact h ▸ herr hi
    · rw [State.request_setRequest_of_ne s h] at hi
      exact .inl hi

theorem mute_emit (s : State) {e : Event} (he : e.answers = none) : Mute s (s.emit e) := by
  refine ⟨fun _ => rfl, Nat.le_refl _, fun r => ?_, fun _ h => List.mem_cons_of_mem _ h,
    fun _ h => .inl h, fun _ _ h => .inl h⟩
  rw [answered_iff, answered_iff]
  constructor
  · rintro ⟨e', hmem, heq⟩
    rcases List.mem_cons.mp hmem with rfl | hmem
    · cases he.symm.trans heq
    · exact ⟨e', hmem, heq⟩
  · rintro ⟨e', hmem, heq⟩
    exact ⟨e', List.mem_cons_of_mem _ hmem, heq⟩

theorem mute_call (s : State) {frames : List Frame}
    (h : ∀ c r, .errored c (some r) ∈ frames → .error r ∈ s.events) :
    Mute s (s.call frames) := by
  refine mute_of_eq rfl rfl rfl ?_
  intro c r hf
  rcases List.mem_append.mp hf with hf | hf
  · exact .inr (h c r hf)
  · exact .inl hf

theorem mute_throw (s : State) : Mute s s.throw :=
  mute_of_eq rfl rfl rfl fun _ _ hf => .inl ((List.dropWhile_sublist _).subset hf)

theorem mute_pop {f : Frame} {stack : List Frame} (h : s.stack = f :: stack) :
    Mute s { s with stack := stack } :=
  mute_of_eq rfl rfl rfl fun _ _ hf => .inl (h ▸ List.mem_cons_of_mem f hf)

theorem Told.answer (h : Told s) (hr : r < s.requests) {e : Event} (he : e.answers = some r) :
    Told ((s.setRequest r fun q => { q with res := true }).emit e) := by
  let s₁ := s.setRequest r fun q => { q with res := true }
  have hres : ∀ i, (s₁.request i).res = true ↔ (s.request i).res = true ∨ i = r := by
    intro i
    by_cases hi : i = r
    · rw [hi, State.request_setRequest]
      simp
    · rw [State.request_setRequest_of_ne s hi]
      simp [hi]
  have hhad : ∀ i, (s₁.request i).hadError = (s.request i).hadError := by
    intro i
    by_cases hi : i = r
    · rw [hi, State.request_setRequest]
    · rw [State.request_setRequest_of_ne s hi]
  refine ⟨fun i => ?_, fun i hi => ?_, fun c i hf => ?_, fun i hi => ?_⟩
  · have hbefore := h.res i
    rw [answered_iff] at hbefore ⊢
    refine (hres i).trans ⟨?_, ?_⟩
    · rintro (hi | hi)
      · obtain ⟨e', hmem, heq⟩ := hbefore.mp hi
        exact ⟨e', List.mem_cons_of_mem _ hmem, heq⟩
      · exact ⟨e, List.mem_cons_self, hi ▸ he⟩
    · rintro ⟨e', hmem, heq⟩
      rcases List.mem_cons.mp hmem with rfl | hmem
      · exact .inr (Option.some.inj (heq.symm.trans he))
      · exact .inl (hbefore.mpr ⟨e', hmem, heq⟩)
  · exact List.mem_cons_of_mem _ (h.blamed i ((hhad i).symm.trans hi))
  · exact List.mem_cons_of_mem _ (h.errored c i hf)
  · rcases (hres i).mp hi with hi | hi
    · exact h.born i hi
    · exact hi ▸ hr

theorem mute_user (s : State) : Mute s (s.call [.user]) :=
  mute_call s (by simp)

theorem mute_detachSocket (s : State) (r c : ℕ) : Mute s (s.detachSocket r c) :=
  (mute_setSocket s c _).trans (mute_setRequest _ r _ rfl .inl)

theorem mute_queue (s : State) (queue : List ℕ) : Mute s { s with queue := queue } :=
  mute_of_eq rfl rfl rfl fun _ _ hf => .inl hf

/-! ### The handlers -/

theorem Told.appendMessage (h : Told s) : Told s.appendMessage := by
  have hnew : (s.request s.requests).res = false := by
    rw [← Bool.not_eq_true]
    exact fun hres => Nat.lt_irrefl _ (h.born _ hres)
  have hqueue : Mute s { s with requests := s.requests + 1, queue := s.queue ++ [s.requests] } :=
    ⟨fun _ => rfl, Nat.le_succ _, fun _ => Iff.rfl, fun _ he => he, fun _ hr => .inl hr,
      fun _ _ hf => .inl hf⟩
  have hset := mute_setRequest { s with requests := s.requests + 1, queue := s.queue ++ [s.requests] }
    s.requests (fun _ => { ClientRequest.new with queued := true }) hnew.symm nofun
  exact h.mute (hqueue.trans (hset.trans (mute_call _ (by simp))))

theorem mute_abort (s : State) (r : ℕ) : Mute s (s.abort r) := by
  have hemit := mute_emit s (e := .abort r) rfl
  unfold State.abort
  dsimp only
  split_ifs
  · exact hemit.trans (mute_throw _)
  · exact hemit.trans (mute_queue _ _)
  · split
    · split_ifs
      · exact hemit.trans ((mute_detachSocket _ r _).trans (mute_setSocket _ _ _))
      · exact hemit.trans (mute_throw _)
    · exact hemit

theorem Told.onIncoming (h : Told s) (hc : ∀ r, (s.socket c).httpMessage = some r → r < s.requests)
    (statusCode : ℕ) (close : Bool) : Told (s.onIncoming c statusCode close) := by
  unfold State.onIncoming
  split
  · exact h.mute (mute_setSocket s c _)
  · rename_i r hm
    dsimp only
    split_ifs
    · exact (h.answer (hc r hm) (e := .continued r) rfl).mute (mute_user _)
    · have htold := h.answer (hc r hm) (e := .response r) rfl
      have hkeep := mute_setRequest ((s.setRequest r fun q => { q with res := true }).emit
        (.response r)) r
        (fun q => if q.shouldKeepAlive && close then { q with shouldKeepAlive := false } else q)
        (by split_ifs <;> rfl) (by split_ifs <;> exact .inl)
      have hread := mute_setSocket (((s.setRequest r fun q => { q with res := true }).emit
        (.response r)).setRequest r
          fun q => if q.shouldKeepAlive && close then { q with shouldKeepAlive := false } else q)
        c fun k => { k with reading := some r }
      exact htold.mute (hkeep.trans (hread.trans (mute_user _)))

theorem mute_destroySoon (s : State) (c : ℕ) (soon : Option Bool) :
    Mute s (s.destroySoon c soon) := by
  cases soon with
  | some exception => exact mute_setSocket s c (·.destroy exception)
  | none => exact mute_queue s s.queue

theorem mute_onEnd (s : State) (c r : ℕ) (soon : Option Bool) : Mute s (s.onEnd c r soon) := by
  obtain ⟨s₁, s₂, rfl, hsoon, hend⟩ := s.onEnd_cases c r soon
  have hset := (mute_setSocket s c fun k => { k with reading := none }).trans
    (mute_emit _ (e := .complete r) rfl)
  have hmute : Mute s s₂ := by
    rcases hsoon with rfl | rfl
    · exact hset
    · exact hset.trans (mute_destroySoon _ c soon)
  rcases hend with hend | hend | ⟨_, hend⟩
  · exact hend ▸ hmute.trans (mute_throw s₂)
  · exact hend ▸ hmute.trans (mute_call s₂ (by simp))
  · exact hend ▸ hmute.trans ((mute_detachSocket s₂ r c).trans (mute_call _ (by simp)))

theorem Told.onUpgrade (h : Told s) (hc : ∀ r, (s.socket c).httpMessage = some r → r < s.requests)
    (handled : Bool) : Told (s.onUpgrade c handled) := by
  have hset := mute_setSocket s c fun k => { k with upgraded := true }
  unfold State.onUpgrade
  dsimp only
  rw [State.socket_setSocket]
  split
  · exact h.mute (hset.trans (mute_throw _))
  · rename_i r hm
    have htold := ((h.mute hset).answer (hc r hm) (e := .upgrade r) rfl).mute (mute_removeSocket _ c)
    split_ifs
    · exact htold.mute (mute_user _)
    · exact htold.mute (mute_setSocket _ c _)

theorem mute_onError (s : State) (c : ℕ) : Mute s (s.onError c) := by
  unfold State.onError
  split
  · rename_i r _
    refine (mute_emit s (e := .error r) rfl).trans (mute_call _ ?_)
    intro d i hf
    simp only [List.mem_cons, reduceCtorEq, false_or, List.not_mem_nil, or_false] at hf
    cases hf
    exact List.mem_cons_self
  · split
    · rename_i r rest _
      have hqueue := mute_queue s rest
      dsimp only
      split_ifs
      · refine hqueue.trans ((mute_setRequest _ r _ rfl .inl).trans
          ((mute_emit _ (e := .error r) rfl).trans (mute_call _ ?_)))
        intro d i hf
        simp only [List.mem_cons, reduceCtorEq, false_or, List.not_mem_nil, or_false] at hf
        cases hf
        exact List.mem_cons_self
      · exact hqueue.trans (mute_throw _)
    · exact mute_call s (by simp)

theorem mute_onClose (s : State) (c : ℕ) : Mute s (s.onClose c) := by
  unfold State.onClose
  split
  · exact mute_call s (by simp)
  · split_ifs
    · exact (mute_emit s rfl).trans (mute_call _ (by simp))
    · exact mute_call s (by simp)
    · exact (mute_emit s rfl).trans (mute_call _ (by simp))

theorem mute_onConnect (s : State) (c : ℕ) : Mute s (s.onConnect c) := by
  have hset := mute_setSocket s c fun k => { k with connecting := false }
  unfold State.onConnect
  dsimp only
  split_ifs
  · exact hset.trans ((mute_setSocket _ c _).trans (mute_call _ (by simp)))
  · exact hset.trans (mute_throw _)

theorem mute_onEof (s : State) (c : ℕ) (soon : Option Bool) : Mute s (s.onEof c soon) := by
  obtain ⟨s₁, s₂, rfl, hend, hcall⟩ := s.onEof_cases c soon
  have hset := mute_setSocket s c fun k => { k with readable := false }
  have hmute : Mute s s₂ := by
    rcases hend with rfl | rfl
    · exact hset.trans (mute_destroySoon _ c soon)
    · exact hset.trans (mute_setSocket _ c _)
  rcases hcall with hcall | hcall
  all_goals
    rw [hcall]
    exact hmute.trans (mute_call _ (by simp))

theorem mute_assignSocket (s : State) (r c : ℕ) : Mute s (s.assignSocket r c) := by
  unfold State.assignSocket
  split_ifs
  · exact mute_throw s
  · exact (mute_setSocket s c _).trans ((mute_setRequest _ r _ rfl .inl).trans (mute_user _))

theorem mute_establishNewConnection (s : State) (lookup : Option Lookup) :
    Mute s (s.establishNewConnection lookup) := by
  unfold State.establishNewConnection
  dsimp only
  split_ifs
  · have hpush : Mute s { s with
        connections := s.connections + 1, sockets := s.sockets ++ [s.connections] } :=
      mute_of_eq rfl rfl rfl fun _ _ hf => .inl hf
    exact hpush.trans ((mute_setSocket _ _ _).trans (mute_call _ (by simp)))
  · exact mute_throw s

theorem mute_cycle (s : State) (lookup : Option Lookup) : Mute s (s.cycle lookup) := by
  unfold State.cycle
  split
  · exact mute_queue s s.queue
  · rename_i first rest _
    have hqueue := mute_queue s rest
    split
    · dsimp only
      split_ifs
      · exact hqueue.trans ((mute_setRequest _ first _ rfl .inl).trans
          ((mute_call _ (by simp)).trans (mute_assignSocket _ first _)))
      · exact hqueue.trans (mute_throw _)
    · split_ifs
      · exact mute_establishNewConnection s lookup
      · exact mute_queue s s.queue

theorem Told.resume (h : Told s) {f : Frame} {stack : List Frame} (hs : s.stack = f :: stack)
    (h' : { s with stack := stack }.resume f = some s') : Told s' := by
  have hpop := mute_pop hs
  apply h.mute
  cases f with
  | established c =>
    obtain rfl := Option.some.inj h'
    split_ifs
    · exact hpop.trans (mute_setSocket _ c _)
    · exact hpop.trans (mute_throw _)
  | destroy c =>
    obtain rfl := Option.some.inj h'
    exact hpop.trans (mute_setSocket _ c _)
  | errored c req =>
    obtain rfl := Option.some.inj h'
    cases req with
    | none => exact hpop.trans (mute_call _ (by simp))
    | some r =>
      have herror : .error r ∈ s.events := h.errored c r (hs ▸ List.mem_cons_self)
      have hset := mute_setRequest { s with stack := stack } r
        (fun q => { q with hadError := true }) rfl fun _ => .inr herror
      exact hpop.trans (hset.trans (mute_call _ (by simp)))
  | hungUp c =>
    obtain rfl := Option.some.inj h'
    split
    · split_ifs
      · exact hpop.trans (mute_call _ (by simp))
      · exact hpop.trans (mute_throw _)
    · exact hpop.trans (mute_throw _)
  | remove c =>
    obtain rfl := Option.some.inj h'
    exact hpop.trans ((mute_removeSocket _ c).trans (mute_call _ (by simp)))
  | user | cycle | execute | finish => cases h'

/-! ### The steps -/

theorem Told.perform (h : Told s) {call : Call} (hs : s.perform call = some s') : Told s' := by
  cases call with
  | appendMessage =>
    obtain rfl := Option.some.inj hs
    exact h.appendMessage
  | keepAlive r value =>
    obtain ⟨_, rfl⟩ := Option.ite_some_none_eq_some.mp hs
    exact h.mute (mute_setRequest s r _ rfl .inl)
  | abort r =>
    obtain ⟨_, rfl⟩ := Option.ite_some_none_eq_some.mp hs
    exact h.mute (mute_abort s r)
  | destroy c exception =>
    obtain ⟨_, rfl⟩ := Option.ite_some_none_eq_some.mp hs
    exact h.mute (mute_setSocket s c _)

theorem mute_dispatch {tick : Tick} (hs : s.dispatch tick = some s') : Mute s s' := by
  cases tick with
  | lookup c result =>
    obtain ⟨_, rfl⟩ := Option.ite_some_none_eq_some.mp hs
    exact mute_setSocket s c _
  | connect c =>
    obtain ⟨_, rfl⟩ := Option.ite_some_none_eq_some.mp hs
    exact mute_onConnect s c
  | data c =>
    obtain ⟨_, rfl⟩ := Option.ite_some_none_eq_some.mp hs
    exact mute_call s (by simp)
  | eof c soon =>
    obtain ⟨_, rfl⟩ := Option.ite_some_none_eq_some.mp hs
    exact mute_onEof s c soon
  | error c =>
    obtain ⟨_, rfl⟩ := Option.ite_some_none_eq_some.mp hs
    have hset := mute_setSocket s c fun k => { k with exception := false }
    split_ifs
    · exact hset.trans (mute_onError _ c)
    · exact hset
  | close c =>
    obtain ⟨_, rfl⟩ := Option.ite_some_none_eq_some.mp hs
    have hset := mute_setSocket s c fun k => { k with closing := false }
    split_ifs
    · exact hset.trans (mute_onClose _ c)
    · exact hset

theorem Told.parse (h : Told s) (hl : Linked s) {f : Frame}
    (hf : ∀ c r, f ≠ .errored c (some r)) {p : Parse} (hs : s.parse f c p = some s') :
    Told s' := by
  have hcall : Mute s (s.call [f]) := by
    refine mute_call s fun d r hmem => ?_
    exact absurd (List.mem_singleton.mp hmem).symm (hf d r)
  cases p with
  | incoming statusCode close =>
    obtain ⟨_, rfl⟩ := Option.ite_some_none_eq_some.mp hs
    exact (h.mute hcall).onIncoming (fun r hr => (hl.carried r c hr).1) statusCode close
  | body =>
    obtain rfl := Option.some.inj hs
    exact h.mute (hcall.trans (mute_user _))
  | complete soon =>
    unfold State.parse at hs
    dsimp only at hs
    split at hs
    · obtain rfl := Option.some.inj hs
      exact h.mute (hcall.trans (mute_onEnd _ c _ soon))
    · cases hs
  | fails =>
    obtain rfl := Option.some.inj hs
    exact h.mute (mute_setSocket s c _)
  | upgrade handled =>
    obtain ⟨_, rfl⟩ := Option.ite_some_none_eq_some.mp hs
    exact h.onUpgrade (fun r hr => (hl.carried r c hr).1) handled
  | done =>
    obtain rfl := Option.some.inj hs
    exact h

theorem Told.step (h : Told s) (hl : Linked s) {a : Action} (hs : s.step a = some s') :
    Told s' := by
  cases runs_of_step hs with
  | call hcall => exact h.perform hcall
  | tick htick => exact h.mute (mute_dispatch htick)
  | execute hstack hparse =>
    exact (h.mute (mute_pop hstack)).parse (hl.still (still_pop hstack)) (by simp) hparse
  | finish hstack _ hparse =>
    exact (h.mute (mute_pop hstack)).parse (hl.still (still_pop hstack)) (by simp) hparse
  | cycle hstack hcycle => exact h.mute (hcycle ▸ (mute_pop hstack).trans (mute_cycle _ _))
  | resume hstack hresume => exact h.resume hstack hresume
  | returns hstack hpop => exact h.mute (hpop ▸ mute_pop hstack)
  | throws hstack hthrow => exact h.mute (hthrow ▸ (mute_pop hstack).trans (mute_throw _))

structure Kept (s : State) : Prop where
  linked : Linked s
  told : Told s

theorem kept_new (n : ℕ) : Kept (State.new n) :=
  ⟨linked_new n, ⟨fun _ => iff_of_false Bool.false_ne_true nofun, nofun, nofun, nofun⟩⟩

theorem Kept.step (h : Kept s) {a : Action} (hs : s.step a = some s') : Kept s' := by
  obtain ⟨m, hd, _, _⟩ := step_does h.linked h.told.blamed hs
  exact ⟨h.linked.does hd, h.told.step h.linked hs⟩

/-! ### The close of a socket -/

/-- Socket `c` closes with request `r` on it, which got neither 'response' nor 'error'. -/
def State.Hangs (s : State) (a : Action) (c r : ℕ) : Prop :=
  a = .tick (.close c) ∧ (s.socket c).httpMessage = some r ∧ .response r ∉ s.events ∧
    .error r ∉ s.events

def Reported (s : State) (a : Action) (s' : State) : Prop :=
  ∀ c r, s.Hangs a c r → .error r ∈ s'.events

/-- The handlers of the socket are set, and `res` is not that of an interim response or of an
upgrade. -/
def Plain (s : State) (a : Action) (_ : State) : Prop :=
  ∀ c r, s.Hangs a c r →
    (s.socket c).listening = true ∧ .continued r ∉ s.events ∧ .upgrade r ∉ s.events

theorem Told.error_onClose_iff (h : Told s) (hm : (s.socket c).httpMessage = some r)
    (hresponse : .response r ∉ s.events) (herror : .error r ∉ s.events) :
    .error r ∈ (s.onClose c).events ↔ .continued r ∉ s.events ∧ .upgrade r ∉ s.events := by
  have hblameless : ¬ (s.request r).hadError = true := fun hr => herror (h.blamed r hr)
  have hres : (s.request r).res = true ↔ .continued r ∈ s.events ∨ .upgrade r ∈ s.events := by
    rw [h.res]
    exact or_iff_right hresponse
  unfold State.onClose
  rw [hm]
  dsimp only
  rw [if_neg hblameless]
  by_cases hr : (s.request r).res = true
  · rw [if_pos hr]
    have habsent : .error r ∉ ((s.emit (.aborted r)).call [.user, .hungUp c]).events := by
      intro hmem
      rcases List.mem_cons.mp hmem with heq | hmem
      · cases heq
      · exact herror hmem
    refine iff_of_false habsent fun hnot => ?_
    exact (hres.mp hr).elim hnot.1 hnot.2
  · rw [if_neg hr]
    rw [hres, not_or] at hr
    exact iff_of_true List.mem_cons_self hr

theorem Told.reported_iff (h : Told s) {a : Action} (hs : s.step a = some s') :
    Reported s a s' ↔ Plain s a s' := by
  refine forall_congr' fun c => forall_congr' fun r => forall_congr' fun hhangs => ?_
  obtain ⟨rfl, hm, hresponse, herror⟩ := hhangs
  obtain ⟨_, hs⟩ := Option.ite_none_right_eq_some.mp hs
  obtain ⟨_, rfl⟩ := Option.ite_some_none_eq_some.mp hs
  have htold : Told (s.setSocket c fun k => { k with closing := false }) :=
    h.mute (mute_setSocket s c _)
  rw [State.socket_setSocket]
  by_cases hlistening : (s.socket c).listening = true
  · rw [if_pos hlistening]
    have hmessage : ((s.setSocket c fun k => { k with closing := false }).socket c).httpMessage =
        some r := by
      rw [State.socket_setSocket]
      exact hm
    rw [htold.error_onClose_iff hmessage hresponse herror]
    exact (and_iff_right hlistening).symm
  · rw [if_neg hlistening]
    exact iff_of_false herror fun hplain => hlistening hplain.1

/-- A request without response and error learns that its socket closes, just when no interim
response and no upgrade came before, on a socket that has its handlers. -/
theorem hangUp_reported_iff (n : ℕ) (as : List Action) :
    Along State.step Reported (State.new n) as ↔ Along State.step Plain (State.new n) as :=
  along_congr (kept_new n) (fun _ _ _ h hs => h.step hs)
    (fun _ _ _ h hs => h.told.reported_iff hs) as

/-- After `100 Continue` the close of the socket looks like the end of a response. -/
theorem hangUp_unreported :
    ¬ ∀ n as, Along State.step Reported (State.new n) as := by
  intro h
  let as : List Action := [.call .appendMessage, .cycle none, .cycle none, .returns, .cycle none,
    .resume, .tick (.lookup 0 .started), .tick (.connect 0), .returns, .cycle none,
    .tick (.data 0), .parse (.incoming 100 false), .returns, .parse .done, .call (.destroy 0 false)]
  have hrun : (run State.step (State.new 5) as).map (fun s =>
      ((s.socket 0).httpMessage, s.events, (s.step (.tick (.close 0))).map State.events)) =
        some (some 0, [.continued 0], some [.aborted 0, .continued 0]) := by decide +kernel
  obtain ⟨s, hs, hs'⟩ := Option.map_eq_some_iff.mp hrun
  obtain ⟨hm, hevents⟩ := Prod.mk.inj hs'
  obtain ⟨hevents, hclose⟩ := Prod.mk.inj hevents
  obtain ⟨s', hstep, hevents'⟩ := Option.map_eq_some_iff.mp hclose
  have hhangs : s.Hangs (.tick (.close 0)) 0 0 := by
    refine ⟨rfl, hm, ?_, ?_⟩
    · simp [hevents]
    · simp [hevents]
  have herror := (h 5 (as ++ [.tick (.close 0)])).last hs hstep 0 0 hhangs
  simp [hevents'] at herror

end NodeJS.Agent
