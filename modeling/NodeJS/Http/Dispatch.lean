import NodeJS.Http.Agent
import NodeJS.Lib.Dispatch

/-! The place of a request of an agent: the queue, or one of its sockets. -/
namespace NodeJS.Agent
open Lib Desk
variable {s s' s'' : State} {m : Move ℕ ℕ} {P : Prop} {r c : ℕ}

/-- The agent as a desk: requests wait in `queue` and are carried by `sockets`. -/
def State.desk (s : State) : Desk ℕ ℕ :=
  ⟨s.queue, s.sockets, fun c => (s.socket c).httpMessage⟩

/-- The request was aborted by a call or, in the middle of its response, by the end of its
connection, has failed, or has its whole response. An interim response is none. -/
def State.Settled (s : State) (r : ℕ) : Prop :=
  .abort r ∈ s.events ∨ (.aborted r ∈ s.events ∧ .response r ∈ s.events) ∨
    .error r ∈ s.events ∨ .complete r ∈ s.events

/-- The request is settled, or the 'close' handler has emitted 'aborted' on what it has in `res`. -/
def State.Parted (s : State) (r : ℕ) : Prop :=
  s.Settled r ∨ .aborted r ∈ s.events

/-- The socket that the frame is going to take from the agent. -/
def Frame.removes : Frame → Option ℕ
  | .errored c _ | .hungUp c | .remove c => some c
  | .user | .cycle | .established _ | .execute _ | .finish _ | .destroy _ => none

/-- The 'error' or 'close' handler of the socket is under way. -/
def State.Leaving (s : State) (c : ℕ) : Prop :=
  ∃ f ∈ s.stack, f.removes = some c

/-! ### What a step does -/

/-- `s'` differs from `s` in nothing that tells where a request is. -/
structure Still (s s' : State) : Prop where
  desk : s'.desk = s.desk
  maxSockets : s'.maxSockets = s.maxSockets
  requests : s'.requests = s.requests
  connections : s'.connections = s.connections
  queued : ∀ r, (s'.request r).queued = (s.request r).queued
  events : ∀ e ∈ s.events, e ∈ s'.events
  leaving : ∀ c, s'.Leaving c → s.Leaving c

/-- `s'` comes from `s` by the move `m`. -/
structure Does (s : State) (m : Move ℕ ℕ) (s' : State) : Prop where
  desk : s'.desk = s.desk.move m
  maxSockets : s'.maxSockets = s.maxSockets
  enabled : s.desk.Enabled m
  room : ∀ c, m = .hire c → s.sockets.length < s.maxSockets
  requests : ∀ r, r < s'.requests ↔ r < s.requests ∨ m = .enter r
  connections : ∀ c, c < s'.connections ↔ c < s.connections ∨ m = .hire c
  queued : ∀ r ∈ s'.queue, (s.request r).queued = true ∨ m = .enter r →
    (s'.request r).queued = true
  events : ∀ e ∈ s.events, e ∈ s'.events
  leaving : ∀ c, s'.Leaving c → s.Leaving c ∨ ∀ r, s'.desk.load c = some r → s'.Parted r

theorem State.Settled.mono (h : s.Settled r) (he : ∀ e ∈ s.events, e ∈ s'.events) :
    s'.Settled r := by
  rcases h with h | ⟨h, hresponse⟩ | h | h
  · exact .inl (he _ h)
  · exact .inr (.inl ⟨he _ h, he _ hresponse⟩)
  · exact .inr (.inr (.inl (he _ h)))
  · exact .inr (.inr (.inr (he _ h)))

theorem State.Parted.mono (h : s.Parted r) (he : ∀ e ∈ s.events, e ∈ s'.events) : s'.Parted r :=
  h.imp (·.mono he) (he _)

theorem Still.refl (s : State) : Still s s :=
  ⟨rfl, rfl, rfl, rfl, fun _ => rfl, fun _ h => h, fun _ h => h⟩

theorem Still.trans (h : Still s s') (h' : Still s' s'') : Still s s'' :=
  ⟨h'.desk.trans h.desk, h'.maxSockets.trans h.maxSockets, h'.requests.trans h.requests,
    h'.connections.trans h.connections, fun r => (h'.queued r).trans (h.queued r),
    fun e he => h'.events e (h.events e he), fun c hc => h.leaving c (h'.leaving c hc)⟩

theorem Still.does (h : Still s s') : Does s .stay s' := by
  refine ⟨h.desk, h.maxSockets, trivial, nofun, ?_, ?_, ?_, h.events, ?_⟩
  · intro r
    simp [h.requests]
  · intro c
    simp [h.connections]
  · intro r _ hr
    rw [h.queued]
    simpa using hr
  · intro c hc
    exact .inl (h.leaving c hc)

theorem Still.does_trans (h : Still s s') (h' : Does s' m s'') : Does s m s'' := by
  have hqueue : s'.queue = s.queue := congrArg Desk.waiting h.desk
  have hsockets : s'.sockets = s.sockets := congrArg Desk.workers h.desk
  refine ⟨by rw [h'.desk, h.desk], h'.maxSockets.trans h.maxSockets, h.desk ▸ h'.enabled, ?_, ?_,
    ?_, ?_, fun e he => h'.events e (h.events e he), ?_⟩
  · intro c hm
    rw [← hsockets, ← h.maxSockets]
    exact h'.room c hm
  · intro r
    rw [h'.requests, h.requests]
  · intro c
    rw [h'.connections, h.connections]
  · intro r hr hq
    rw [← h.queued] at hq
    exact h'.queued r hr hq
  · intro c hc
    rcases h'.leaving c hc with hc | hc
    · exact .inl (h.leaving c hc)
    · exact .inr hc

theorem Does.still (h : Does s m s') (h' : Still s' s'') : Does s m s'' := by
  have hqueue : s''.queue = s'.queue := congrArg Desk.waiting h'.desk
  refine ⟨h'.desk.trans h.desk, h'.maxSockets.trans h.maxSockets, h.enabled, h.room, ?_, ?_, ?_,
    fun e he => h'.events e (h.events e he), ?_⟩
  · intro r
    rw [h'.requests, h.requests]
  · intro c
    rw [h'.connections, h.connections]
  · intro r hr hq
    rw [hqueue] at hr
    rw [h'.queued]
    exact h.queued r hr hq
  · intro c hc
    rcases h.leaving c (h'.leaving c hc) with hc | hc
    · exact .inl hc
    · refine .inr fun r hr => ?_
      rw [h'.desk] at hr
      exact (hc r hr).mono h'.events

/-! ### The small updates -/

theorem still_setRequest (s : State) (r : ℕ) (f : ClientRequest → ClientRequest)
    (hf : (f (s.request r)).queued = (s.request r).queued) : Still s (s.setRequest r f) := by
  refine ⟨rfl, rfl, rfl, rfl, ?_, fun _ h => h, fun _ h => h⟩
  intro i
  by_cases hi : i = r
  · rw [hi, State.request_setRequest, hf]
  · rw [State.request_setRequest_of_ne s hi]

theorem load_setSocket (s : State) (c : ℕ) (f : Socket → Socket) :
    (s.setSocket c f).desk.load =
      Function.update s.desk.load c (f (s.socket c)).httpMessage := by
  funext i
  unfold State.desk
  dsimp only
  by_cases hi : i = c
  · rw [hi, State.socket_setSocket, Function.update_self]
  · rw [State.socket_setSocket_of_ne s hi, Function.update_of_ne hi]

theorem still_setSocket (s : State) (c : ℕ) (f : Socket → Socket)
    (hf : (f (s.socket c)).httpMessage = (s.socket c).httpMessage) :
    Still s (s.setSocket c f) := by
  refine ⟨?_, rfl, rfl, rfl, fun _ => rfl, fun _ h => h, fun _ h => h⟩
  have hload : (s.setSocket c f).desk.load = s.desk.load := by
    rw [load_setSocket, hf]
    exact Function.update_eq_self c s.desk.load
  exact congrArg (Desk.mk s.queue s.sockets) hload

theorem still_emit (s : State) (e : Event) : Still s (s.emit e) :=
  ⟨rfl, rfl, rfl, rfl, fun _ => rfl, fun _ h => List.mem_cons_of_mem _ h, fun _ h => h⟩

/-- Any stack whose frames take no socket but those on their way out. -/
theorem still_stack (s : State) (stack : List Frame)
    (h : ∀ f ∈ stack, ∀ c, f.removes = some c → s.Leaving c) :
    Still s { s with stack := stack } := by
  refine ⟨rfl, rfl, rfl, rfl, fun _ => rfl, fun _ h => h, ?_⟩
  intro c hc
  obtain ⟨f, hf, hrem⟩ := hc
  exact h f hf c hrem

theorem still_call (s : State) {frames : List Frame} (h : ∀ f ∈ frames, f.removes = none) :
    Still s (s.call frames) := by
  apply still_stack
  intro f hf c hc
  rcases List.mem_append.mp hf with hf | hf
  · rw [h f hf] at hc
    cases hc
  · exact ⟨f, hf, hc⟩

theorem still_user (s : State) : Still s (s.call [.user]) :=
  still_call s fun _ hf => by rw [List.mem_singleton.mp hf]; rfl

theorem still_throw (s : State) : Still s s.throw :=
  still_stack s _ fun f hf _ hc => ⟨f, (List.dropWhile_sublist _).subset hf, hc⟩

theorem still_pop {f : Frame} {stack : List Frame} (h : s.stack = f :: stack) :
    Still s { s with stack := stack } :=
  still_stack s stack fun g hg _ hc => ⟨g, h ▸ List.mem_cons_of_mem f hg, hc⟩

theorem still_destroy (s : State) (c : ℕ) (exception : Bool) :
    Still s (s.setSocket c (·.destroy exception)) := by
  apply still_setSocket
  unfold Socket.destroy
  dsimp only
  split_ifs <;> rfl

theorem still_lookedUp (s : State) (c : ℕ) (result : Lookup) :
    Still s (s.setSocket c (·.lookedUp result)) := by
  apply still_setSocket
  cases result with
  | failed | started => rfl
  | refused =>
    unfold Socket.lookedUp Socket.destroy
    dsimp only
    split_ifs <;> rfl

/-- A frame that takes a socket whose request was parted from it. -/
theorem Does.leave (h : Does s m s') {frames : List Frame}
    (hfr : ∀ f ∈ frames, ∀ d, f.removes = some d → d = c)
    (hc : ∀ r, s'.desk.load c = some r → s'.Parted r) : Does s m (s'.call frames) := by
  refine ⟨h.desk, h.maxSockets, h.enabled, h.room, h.requests, h.connections, h.queued, h.events,
    ?_⟩
  intro d hd
  obtain ⟨f, hf, hrem⟩ := hd
  rcases List.mem_append.mp hf with hf | hf
  · rw [hfr f hf d hrem]
    exact .inr hc
  · exact h.leaving d ⟨f, hf, hrem⟩

/-! ### The handlers -/

/-- A move other than `take` leads from `s` to `s'`, and when `P` holds it sends away settled
requests only. -/
def Moves (s s' : State) (P : Prop) : Prop :=
  ∃ m, Does s m s' ∧ (∀ r c, m ≠ .take r c) ∧ (P → ∀ r, ¬ s'.Settled r → s.desk.Spares m r)

theorem Still.moves (h : Still s s') : Moves s s' P :=
  ⟨.stay, h.does, nofun, fun _ _ _ => trivial⟩

theorem Still.leaves (h : Still s s') (c : ℕ) {frames : List Frame}
    (hfr : ∀ f ∈ frames, ∀ d, f.removes = some d → d = c)
    (hc : ∀ r, s'.desk.load c = some r → s'.Parted r) : Moves s (s'.call frames) P :=
  ⟨.stay, h.does.leave hfr hc, nofun, fun _ _ _ => trivial⟩

theorem Still.moves_trans (h : Still s s') (h' : Moves s' s'' P) : Moves s s'' P := by
  obtain ⟨m, hd, hm, hp⟩ := h'
  rw [h.desk] at hp
  exact ⟨m, h.does_trans hd, hm, hp⟩

/-- What holds in every run: the bound on the sockets, and what a waiting or carried request is. -/
structure Linked (s : State) : Prop where
  proper : s.desk.Proper
  size : s.sockets.length ≤ s.maxSockets
  waiting : ∀ r ∈ s.queue, r < s.requests ∧ (s.request r).queued = true
  carried : ∀ r c, s.desk.load c = some r → r < s.requests ∧ c < s.connections
  known : ∀ c ∈ s.sockets, c < s.connections

theorem Linked.does (h : Linked s) (hd : Does s m s') : Linked s' := by
  have hqueue : s'.queue = (s.desk.move m).waiting := congrArg Desk.waiting hd.desk
  have hsockets : s'.sockets = (s.desk.move m).workers := congrArg Desk.workers hd.desk
  refine ⟨?_, ?_, ?_, ?_, ?_⟩
  · rw [hd.desk]
    exact h.proper.move hd.enabled
  · rw [hsockets, hd.maxSockets]
    cases m with
    | hire c =>
      have hroom := hd.room c rfl
      have hlen : ((s.desk.move (.hire c)).workers).length = s.sockets.length + 1 :=
        List.length_append
      omega
    | dismiss c => exact Nat.le_trans (List.length_erase_le) h.size
    | stay | enter | drop | take | free => exact h.size
  · intro r hr
    have hr' := hr
    rw [hqueue] at hr'
    rcases waiting_move hr' with hw | hm
    · obtain ⟨hlt, hq⟩ := h.waiting r hw
      exact ⟨(hd.requests r).mpr (.inl hlt), hd.queued r hr (.inl hq)⟩
    · exact ⟨(hd.requests r).mpr (.inr hm), hd.queued r hr (.inr hm)⟩
  · intro r c hl
    rw [hd.desk] at hl
    rw [hd.requests, hd.connections]
    rcases load_move hl with hl | rfl
    · obtain ⟨hr, hc⟩ := h.carried r c hl
      exact ⟨.inl hr, .inl hc⟩
    · obtain ⟨hr, hc, _⟩ := hd.enabled
      exact ⟨.inl (h.waiting r hr).1, .inl (h.known c hc)⟩
  · intro c hc
    rw [hsockets] at hc
    rw [hd.connections]
    rcases workers_move hc with hc | hm
    · exact .inl (h.known c hc)
    · exact .inr hm

theorem Linked.still (h : Linked s) (hs : Still s s') : Linked s' :=
  h.does hs.does

theorem linked_new (n : ℕ) : Linked (State.new n) := by
  refine ⟨⟨List.nodup_nil, List.nodup_nil, nofun, nofun⟩, Nat.zero_le n, nofun, nofun, nofun⟩

theorem Linked.appendMessage (h : Linked s) : Moves s s.appendMessage P := by
  have hwaits : s.requests ∉ s.queue := fun hr => Nat.lt_irrefl _ (h.waiting _ hr).1
  have hrides : ∀ c, s.desk.load c ≠ some s.requests :=
    fun c hl => Nat.lt_irrefl _ (h.carried _ c hl).1
  have hdoes : Does s (.enter s.requests)
      ({ s with requests := s.requests + 1, queue := s.queue ++ [s.requests] }.setRequest s.requests
        fun _ => { ClientRequest.new with queued := true }) := by
    refine ⟨rfl, rfl, ⟨hwaits, hrides⟩, nofun, ?_, ?_, ?_, fun _ he => he, fun _ hc => .inl hc⟩
    · intro r
      have hlt : r < s.requests + 1 ↔ r < s.requests ∨ s.requests = r := by omega
      simpa [State.setRequest] using hlt
    · intro c
      simp [State.setRequest]
    · intro r _ hq
      by_cases hr : r = s.requests
      · rw [hr, State.request_setRequest]
      · rw [State.request_setRequest_of_ne _ hr]
        rcases hq with hq | hq
        · exact hq
        · cases hq
          exact absurd rfl hr
  exact ⟨_, hdoes.still (still_call _ (by simp [Frame.removes])), nofun, fun _ _ _ => trivial⟩

/-- Dropping a request from the queue. -/
theorem does_drop (s : State) (r : ℕ) :
    Does s (.drop r) { s with queue := s.queue.erase r } := by
  refine ⟨rfl, rfl, trivial, nofun, ?_, ?_, ?_, fun _ he => he, fun _ hc => .inl hc⟩
  · simp
  · simp
  · intro i _ hq
    simpa using hq

theorem does_free (s : State) (r c : ℕ) : Does s (.free c) (s.detachSocket r c) := by
  have hload := load_setSocket s c fun k => { k with httpMessage := none }
  have hset : Does s (.free c) (s.setSocket c fun k => { k with httpMessage := none }) := by
    refine ⟨congrArg (Desk.mk s.queue s.sockets) hload, rfl, trivial, nofun, ?_, ?_, ?_,
      fun _ he => he, fun _ hc => .inl hc⟩
    · simp [State.setSocket]
    · simp [State.setSocket]
    · intro i _ hq
      simpa [State.setSocket] using hq
  exact hset.still (still_setRequest _ r _ rfl)

theorem removeSocket_eq (s : State) (c : ℕ) :
    s.removeSocket c = { s with sockets := s.sockets.erase c } := by
  unfold State.removeSocket
  by_cases hc : c ∈ s.sockets
  · have hindex : 0 ≤ indexOf s.sockets c := by
      unfold indexOf
      rw [if_pos hc]
      omega
    rw [if_pos hindex, splice_indexOf hc]
  · have hindex : ¬ 0 ≤ indexOf s.sockets c := by
      unfold indexOf
      rw [if_neg hc]
      omega
    rw [if_neg hindex, List.erase_of_not_mem hc]

theorem does_dismiss (s : State) (c : ℕ) : Does s (.dismiss c) (s.removeSocket c) := by
  rw [removeSocket_eq]
  refine ⟨rfl, rfl, trivial, nofun, ?_, ?_, ?_, fun _ he => he, fun _ hc => .inl hc⟩
  · simp
  · simp
  · intro i _ hq
    simpa using hq

/-- Whatever the index is, `splice` removes one entry or none. -/
theorem splice_eq_erase {l : List ℕ} (h : l.Nodup) (hr : r ∉ l) (i : ℤ) :
    ∃ x, splice l i = l.erase x := by
  unfold splice
  generalize (if i < 0 then (l.length + i).toNat else i.toNat) = k
  by_cases hk : k < l.length
  · exact ⟨l[k], (h.erase_getElem k hk).symm⟩
  · rw [List.eraseIdx_of_length_le (by omega)]
    exact ⟨r, (List.erase_of_not_mem hr).symm⟩

theorem Linked.abort (h : Linked s) (r : ℕ) :
    Moves s (s.abort r) ((s.request r).queued = true → r ∈ s.queue ∨ s.queue = []) := by
  have hemit := still_emit s (.abort r)
  have hsettled : (s.emit (.abort r)).Settled r := .inl List.mem_cons_self
  unfold State.abort
  dsimp only
  split_ifs with hq hc
  · exact (hemit.trans (still_throw _)).moves
  · by_cases hr : r ∈ s.queue ∨ s.queue = []
    · have hsplice : splice (s.emit (.abort r)).queue (indexOf (s.emit (.abort r)).queue r) =
          s.queue.erase r := by
        rcases hr with hr | hr
        · exact splice_indexOf hr
        · unfold State.emit
          dsimp only
          rw [hr]
          rfl
      rw [hsplice]
      refine ⟨.drop r, hemit.does_trans (does_drop _ r), nofun, fun _ i hi heq => ?_⟩
      exact hi (heq ▸ hsettled.mono fun _ he => he)
    · have hmem : r ∉ s.queue := fun hmem => hr (.inl hmem)
      obtain ⟨x, hx⟩ := splice_eq_erase h.proper.waiting hmem (indexOf s.queue r)
      have hsplice : splice (s.emit (.abort r)).queue (indexOf (s.emit (.abort r)).queue r) =
          s.queue.erase x := hx
      rw [hsplice]
      exact ⟨.drop x, hemit.does_trans (does_drop _ x), nofun, fun hP => absurd (hP hq) hr⟩
  · split
    · rename_i c _
      split_ifs with hm
      · have hdoes := hemit.does_trans (does_free (s.emit (.abort r)) r c)
        refine ⟨.free c, hdoes.still (still_destroy _ c false), nofun, fun _ i hi hl => ?_⟩
        have hir : some r = some i := hm.symm.trans hl
        rw [← Option.some.inj hir] at hi
        exact hi (hsettled.mono fun _ he => he)
      · exact (hemit.trans (still_throw _)).moves
    · exact hemit.moves

theorem still_onIncoming (s : State) (c statusCode : ℕ) (close : Bool) :
    Still s (s.onIncoming c statusCode close) := by
  unfold State.onIncoming
  split
  · exact still_destroy s c false
  · rename_i r _
    have hres := still_setRequest s r (fun q => { q with res := true }) rfl
    dsimp only
    split_ifs with h
    · exact hres.trans ((still_emit _ _).trans (still_user _))
    · apply hres.trans
      refine (still_setRequest _ r _ ?_).trans
        ((still_setSocket _ c _ rfl).trans ((still_emit _ _).trans (still_user _)))
      split_ifs <;> rfl

theorem still_destroySoon (s : State) (c : ℕ) (soon : Option Bool) :
    Still s (s.destroySoon c soon) := by
  cases soon with
  | some exception => exact still_destroy s c exception
  | none => exact .refl s

theorem onEnd_moves (s : State) (c r : ℕ) (soon : Option Bool) : Moves s (s.onEnd c r soon) P := by
  have hframes : ∀ f ∈ [Frame.cycle, .user], f.removes = none := by simp [Frame.removes]
  obtain ⟨s₁, s₂, hs₁, hsoon, hend⟩ := s.onEnd_cases c r soon
  have hset : Still s s₁ := by
    rw [hs₁]
    exact (still_setSocket s c _ rfl).trans (still_emit _ (.complete r))
  have hcomplete : .complete r ∈ s₁.events := by
    rw [hs₁]
    exact List.mem_cons_self
  have hsecond : Still s₁ s₂ := by
    rcases hsoon with rfl | rfl
    · exact .refl _
    · exact still_destroySoon s₁ c soon
  have hstill := hset.trans hsecond
  rcases hend with hend | hend | ⟨hm, hend⟩
  · exact hend ▸ (hstill.trans (still_throw s₂)).moves
  · exact hend ▸ (hstill.trans (still_call s₂ hframes)).moves
  · have hdoes := (hstill.does_trans (does_free s₂ r c)).still (still_call _ hframes)
    rw [hend]
    refine ⟨.free c, hdoes, nofun, fun _ i hi hl => ?_⟩
    rw [← hstill.desk] at hl
    have hri : some r = some i := hm.symm.trans hl
    rw [← Option.some.inj hri] at hi
    exact hi (.inr (.inr (.inr (hsecond.events _ hcomplete))))

theorem onUpgrade_moves (s : State) (c : ℕ) (handled : Bool) :
    Moves s (s.onUpgrade c handled) (∀ r, (s.socket c).httpMessage = some r → s.Settled r) := by
  have hset := still_setSocket s c (fun k => { k with upgraded := true }) rfl
  unfold State.onUpgrade
  dsimp only
  split
  · exact (hset.trans (still_throw _)).moves
  · rename_i r hm
    have hstill := hset.trans ((still_setRequest _ r (fun q => { q with res := true }) rfl).trans
      (still_emit _ (.upgrade r)))
    have hmoves := hstill.does_trans (does_dismiss _ c)
    refine ⟨.dismiss c, ?_, nofun, fun hP i hi hl => ?_⟩
    · split_ifs
      · exact hmoves.still (still_user _)
      · exact hmoves.still (still_destroy _ c false)
    · refine hi ((hP i hl).mono ?_)
      split_ifs
      · exact hmoves.events
      · exact hmoves.events

/-- The first request of the queue leaves it and forgets it. -/
def State.shift (s : State) (r : ℕ) (rest : List ℕ) : State :=
  { s with queue := rest }.setRequest r fun q => { q with queued := false }

theorem Linked.queued_shift (h : Linked s) {rest : List ℕ} (hq : s.queue = r :: rest) {i : ℕ}
    (hi : i ∈ rest) : ((s.shift r rest).request i).queued = (s.request i).queued := by
  have hnodup : (r :: rest).Nodup := hq ▸ h.proper.waiting
  have hne : i ≠ r := fun heq => (List.nodup_cons.mp hnodup).1 (heq ▸ hi)
  unfold State.shift
  rw [State.request_setRequest_of_ne _ hne]

theorem Linked.does_shift (h : Linked s) {rest : List ℕ} (hq : s.queue = r :: rest) :
    Does s (.drop r) (s.shift r rest) := by
  have herase : s.queue.erase r = rest := by
    rw [hq, List.erase_cons_head]
  have hdesk : (s.shift r rest).desk = s.desk.move (.drop r) :=
    congrArg (Desk.mk · s.sockets s.desk.load) herase.symm
  refine ⟨hdesk, rfl, trivial, nofun, ?_, ?_, ?_, fun _ he => he, fun _ hc => .inl hc⟩
  · simp [State.shift, State.setRequest]
  · simp [State.shift, State.setRequest]
  · intro i hi hqueued
    rw [h.queued_shift hq hi]
    simpa using hqueued

theorem Linked.onError (h : Linked s) (c : ℕ) : Moves s (s.onError c) P := by
  unfold State.onError
  split
  · rename_i r hm
    apply (still_emit s (.error r)).leaves c (by simp [Frame.removes])
    intro i hl
    have hri : some r = some i := hm.symm.trans hl
    rw [← Option.some.inj hri]
    exact .inl (.inr (.inr (.inl List.mem_cons_self)))
  · rename_i hm
    have hidle : ∀ i, s.desk.load c ≠ some i := by
      intro i hl
      cases hm.symm.trans hl
    split
    · rename_i r rest hq
      dsimp only
      rw [if_pos (h.waiting r (hq ▸ List.mem_cons_self)).2]
      have hdoes := (h.does_shift hq).still (still_emit _ (.error r))
      refine ⟨.drop r, hdoes.leave (c := c) (by simp [Frame.removes]) ?_, nofun,
        fun _ i hi heq => ?_⟩
      · intro i hl
        exact absurd hl (hidle i)
      · exact hi (heq ▸ .inr (.inr (.inl List.mem_cons_self)))
    · apply (Still.refl s).leaves c (by simp [Frame.removes])
      intro i hl
      exact absurd hl (hidle i)

theorem onClose_moves (s : State) (c : ℕ) (hpending : ∀ r, (s.request r).hadError = true →
    .error r ∈ s.events) : Moves s (s.onClose c) P := by
  unfold State.onClose
  split
  · rename_i hm
    apply (Still.refl s).leaves c (by simp [Frame.removes])
    intro i hl
    cases hm.symm.trans hl
  · rename_i r hm
    have hrider : ∀ i, s.desk.load c = some i → i = r := by
      intro i hl
      exact Option.some.inj (hl.symm.trans hm)
    split_ifs with hres herr
    · apply (still_emit s (.aborted r)).leaves c (by simp [Frame.removes])
      intro i hl
      rw [hrider i hl]
      exact .inr List.mem_cons_self
    · apply (Still.refl s).leaves c (by simp [Frame.removes])
      intro i hl
      rw [hrider i hl]
      exact .inl (.inr (.inr (.inl (hpending r herr))))
    · apply (still_emit s (.error r)).leaves c (by simp [Frame.removes])
      intro i hl
      rw [hrider i hl]
      exact .inl (.inr (.inr (.inl List.mem_cons_self)))

theorem still_onConnect (s : State) (c : ℕ) : Still s (s.onConnect c) := by
  have hset := still_setSocket s c (fun k => { k with connecting := false }) rfl
  unfold State.onConnect
  dsimp only
  split_ifs
  · exact hset.trans ((still_setSocket _ c _ rfl).trans (still_call _ (by simp [Frame.removes])))
  · exact hset.trans (still_throw _)

theorem still_onEof (s : State) (c : ℕ) (soon : Option Bool) : Still s (s.onEof c soon) := by
  obtain ⟨s₁, s₂, hs₁, hend, hcall⟩ := s.onEof_cases c soon
  have hset : Still s s₁ := by
    rw [hs₁]
    exact still_setSocket s c _ rfl
  have hsecond : Still s₁ s₂ := by
    rcases hend with rfl | rfl
    · exact still_destroySoon s₁ c soon
    · exact still_destroy s₁ c false
  have hstill := hset.trans hsecond
  rcases hcall with hcall | hcall
  all_goals
    rw [hcall]
    exact hstill.trans (still_call _ (by simp [Frame.removes]))

/-- A request on a socket which leaves was parted from it. -/
def Drained (s : State) : Prop :=
  ∀ c, s.Leaving c → ∀ r, s.desk.load c = some r → s.Parted r

/-- The request on the socket which is removed next had a response before 'aborted' came. -/
def Responded (s : State) : Prop :=
  ∀ c stack, s.stack = .remove c :: stack →
    ∀ r, (s.socket c).httpMessage = some r → .aborted r ∈ s.events → s.Settled r

theorem resume_moves {f : Frame} {stack : List Frame} (hs : s.stack = f :: stack)
    (h : { s with stack := stack }.resume f = some s') : Moves s s' (Drained s ∧ Responded s) := by
  have hpop := still_pop hs
  have hon : ∀ c, f.removes = some c → ∀ frames : List Frame,
      (∀ g ∈ frames, ∀ d, g.removes = some d → d = c) →
      Still s ({ s with stack := stack }.call frames) := by
    intro c hc frames hframes
    apply still_stack
    intro g hg d hd
    rcases List.mem_append.mp hg with hg | hg
    · rw [hframes g hg d hd]
      exact ⟨f, hs ▸ List.mem_cons_self, hc⟩
    · exact ⟨g, hs ▸ List.mem_cons_of_mem f hg, hd⟩
  cases f with
  | established c =>
    obtain rfl := Option.some.inj h
    apply Still.moves
    split_ifs
    · exact hpop.trans (still_setSocket _ c _ rfl)
    · exact hpop.trans (still_throw _)
  | destroy c =>
    obtain rfl := Option.some.inj h
    exact (hpop.trans (still_destroy _ c false)).moves
  | errored c req =>
    obtain rfl := Option.some.inj h
    have hcall := hon c rfl [.finish c, .destroy c, .remove c] (by simp [Frame.removes])
    cases req with
    | none => exact hcall.moves
    | some r =>
      exact (hcall.trans (still_setRequest _ r (fun q => { q with hadError := true }) rfl)).moves
  | hungUp c =>
    obtain rfl := Option.some.inj h
    apply Still.moves
    split
    · split_ifs
      · exact hon c rfl [.user, .remove c] (by simp [Frame.removes])
      · exact hpop.trans (still_throw _)
    · exact hpop.trans (still_throw _)
  | remove c =>
    obtain rfl := Option.some.inj h
    have hdoes := hpop.does_trans (does_dismiss { s with stack := stack } c)
    refine ⟨.dismiss c, hdoes.still (still_call _ (by simp [Frame.removes])), nofun, ?_⟩
    rintro ⟨hdrained, hresponded⟩ i hi hl
    have hparted := hdrained c ⟨.remove c, hs ▸ List.mem_cons_self, rfl⟩ i hl
    have hsettled := hparted.elim id (hresponded c stack hs i hl)
    exact hi (hsettled.mono hdoes.events)
  | user | cycle | execute | finish => cases h

/-! ### The cycle -/

theorem httpMessage_getConnection (lookup : Option Lookup) :
    (getConnection lookup).httpMessage = none := by
  cases lookup with
  | none => rfl
  | some result => cases result <;> rfl

theorem State.available_of_taken (h : s.taken = some c) : (s.socket c).available = true := by
  have havailable := List.find?_some h
  exact havailable

theorem State.idle_of_taken (h : s.taken = some c) :
    c ∈ s.sockets ∧ (s.socket c).httpMessage = none := by
  have havailable := State.available_of_taken h
  unfold Socket.available at havailable
  rw [Bool.and_eq_true, Option.isNone_iff_eq_none] at havailable
  exact ⟨List.mem_of_find?_eq_some h, havailable.1⟩

theorem Linked.establishNewConnection (h : Linked s) (hroom : s.sockets.length < s.maxSockets)
    (lookup : Option Lookup) : Does s (.hire s.connections) (s.establishNewConnection lookup) := by
  have hidle : s.desk.load s.connections = none := by
    rw [Option.eq_none_iff_forall_ne_some]
    intro r hl
    exact Nat.lt_irrefl _ (h.carried r _ hl).2
  have hload := load_setSocket s s.connections fun _ =>
    { getConnection lookup with httpConnecting := true }
  rw [httpMessage_getConnection, ← hidle, Function.update_eq_self] at hload
  have hdoes : Does s (.hire s.connections)
      ({ s with connections := s.connections + 1, sockets := s.sockets ++ [s.connections] }.setSocket
        s.connections fun _ => { getConnection lookup with httpConnecting := true }) := by
    refine ⟨congrArg (Desk.mk s.queue (s.sockets ++ [s.connections])) hload, rfl, ?_, ?_, ?_, ?_,
      ?_, fun _ he => he, fun _ hc => .inl hc⟩
    · exact fun hc => Nat.lt_irrefl _ (h.known _ hc)
    · exact fun _ _ => hroom
    · simp [State.setSocket]
    · intro c
      have hlt : c < s.connections + 1 ↔ c < s.connections ∨ s.connections = c := by omega
      simpa [State.setSocket] using hlt
    · intro r _ hq
      simpa [State.setSocket] using hq
  unfold State.establishNewConnection
  rw [if_pos hroom]
  exact hdoes.still (still_call _ (by simp [Frame.removes]))

theorem Linked.does_take (h : Linked s) {rest : List ℕ} (hq : s.queue = r :: rest)
    (ht : s.taken = some c) :
    Does s (.take r c) (((s.shift r rest).call [.cycle]).assignSocket r c) := by
  obtain ⟨hmem, hidle⟩ := State.idle_of_taken ht
  have hshift := h.does_shift hq
  have hfree : (((s.shift r rest).call [.cycle]).socket c).httpMessage.isSome = false := by
    rw [Option.isSome_eq_false_iff]
    exact Option.isNone_iff_eq_none.mpr hidle
  unfold State.assignSocket
  rw [if_neg (by rw [hfree]; exact Bool.false_ne_true)]
  have hload := load_setSocket (s.shift r rest) c fun k => { k with httpMessage := some r }
  have hset : Does s (.take r c) ((s.shift r rest).setSocket c fun k =>
      { k with httpMessage := some r }) := by
    have hfirst : r ∈ s.queue := hq ▸ List.mem_cons_self
    refine ⟨?_, rfl, ⟨hfirst, hmem, hidle⟩, nofun, ?_, ?_, ?_, fun _ he => he,
      fun _ hc => .inl hc⟩
    · have hwaiting := congrArg Desk.waiting hshift.desk
      exact congrArg₂ (Desk.mk · s.sockets ·) hwaiting hload
    · simp [State.shift, State.setRequest, State.setSocket]
    · simp [State.shift, State.setRequest, State.setSocket]
    · intro i hi hqueued
      refine hshift.queued i hi ?_
      simpa using hqueued
  have hcycle : ∀ f ∈ [Frame.cycle], f.removes = none := by simp [Frame.removes]
  exact (hset.still (still_call _ hcycle)).still
    ((still_setRequest _ r _ rfl).trans (still_user _))

theorem Linked.cycle_taken (h : Linked s) {rest : List ℕ} (hq : s.queue = r :: rest)
    (ht : s.taken = some c) (lookup : Option Lookup) : Does s (.take r c) (s.cycle lookup) := by
  have hqueued : (s.request r).queued = true := (h.waiting r (hq ▸ List.mem_cons_self)).2
  unfold State.cycle
  rw [hq, ht]
  dsimp only
  rw [if_pos hqueued]
  exact h.does_take hq ht

theorem cycle_of_taken_none {rest : List ℕ} (hq : s.queue = r :: rest) (ht : s.taken = none)
    (lookup : Option Lookup) : s.cycle lookup =
      if s.sockets.length < s.maxSockets then s.establishNewConnection lookup else s := by
  unfold State.cycle
  rw [hq, ht]

theorem Linked.cycle (h : Linked s) (lookup : Option Lookup) :
    ∃ m, Does s m (s.cycle lookup) ∧ (∀ r, s.desk.Spares m r) ∧
      ∀ r c, m = .take r c → s.queue ≠ [] ∧ s.taken = some c := by
  cases hq : s.queue with
  | nil =>
    have hcycle : s.cycle lookup = s := by
      unfold State.cycle
      rw [hq]
    rw [hcycle]
    exact ⟨.stay, (Still.refl s).does, fun _ => trivial, nofun⟩
  | cons first rest =>
    cases ht : s.taken with
    | some c =>
      refine ⟨.take first c, h.cycle_taken hq ht lookup, fun _ => trivial, fun r d heq => ?_⟩
      obtain ⟨rfl, rfl⟩ := Move.take.inj heq
      exact ⟨List.cons_ne_nil _ _, rfl⟩
    | none =>
      rw [cycle_of_taken_none hq ht]
      split_ifs with hroom
      · exact ⟨_, h.establishNewConnection hroom lookup, fun _ => trivial, nofun⟩
      · exact ⟨.stay, (Still.refl s).does, fun _ => trivial, nofun⟩

/-! ### The steps -/

/-- The steps that lose no request: `abort` finds a request that has `_queue` in the queue, unless
the queue is empty, no upgrade takes a socket with its request, `_cycle` leaves a socket alone
whose 'error' or 'close' handler has not come to its end, and a socket that is removed has not been
closed after an interim response. -/
def Safe (s : State) : Action → Prop
  | .call (.abort r) => (s.request r).queued = true → r ∈ s.queue ∨ s.queue = []
  | .parse (.upgrade _) => ∀ c stack, s.stack = .execute c :: stack →
      ∀ r, (s.socket c).httpMessage = some r → s.Settled r
  | .cycle _ => s.queue ≠ [] → ∀ c, s.taken = some c → ¬ s.Leaving c
  | .resume => Responded s
  | _ => True

/-- Every error that `_hadError` stands for was emitted. -/
def Blamed (s : State) : Prop :=
  ∀ r, (s.request r).hadError = true → .error r ∈ s.events

theorem perform_moves (h : Linked s) {call : Call} (hs : s.perform call = some s') :
    Moves s s' (Safe s (.call call)) := by
  cases call with
  | appendMessage =>
    obtain rfl := Option.some.inj hs
    exact h.appendMessage
  | keepAlive r value =>
    obtain ⟨_, rfl⟩ := Option.ite_some_none_eq_some.mp hs
    exact (still_setRequest s r _ rfl).moves
  | abort r =>
    obtain ⟨_, rfl⟩ := Option.ite_some_none_eq_some.mp hs
    exact h.abort r
  | destroy c exception =>
    obtain ⟨_, rfl⟩ := Option.ite_some_none_eq_some.mp hs
    exact (still_destroy s c exception).moves

theorem dispatch_moves (h : Linked s) (hb : Blamed s) {tick : Tick}
    (hs : s.dispatch tick = some s') : Moves s s' P := by
  cases tick with
  | lookup c result =>
    obtain ⟨_, rfl⟩ := Option.ite_some_none_eq_some.mp hs
    exact (still_lookedUp s c result).moves
  | connect c =>
    obtain ⟨_, rfl⟩ := Option.ite_some_none_eq_some.mp hs
    exact (still_onConnect s c).moves
  | data c =>
    obtain ⟨_, rfl⟩ := Option.ite_some_none_eq_some.mp hs
    exact (still_call s (by simp [Frame.removes])).moves
  | eof c soon =>
    obtain ⟨_, rfl⟩ := Option.ite_some_none_eq_some.mp hs
    exact (still_onEof s c soon).moves
  | error c =>
    obtain ⟨_, rfl⟩ := Option.ite_some_none_eq_some.mp hs
    have hset := still_setSocket s c (fun k => { k with exception := false }) rfl
    split_ifs
    · exact hset.moves_trans ((h.still hset).onError c)
    · exact hset.moves
  | close c =>
    obtain ⟨_, rfl⟩ := Option.ite_some_none_eq_some.mp hs
    have hset := still_setSocket s c (fun k => { k with closing := false }) rfl
    split_ifs
    · exact hset.moves_trans (onClose_moves _ c hb)
    · exact hset.moves

theorem parse_moves {f : Frame} (hf : f.removes = none) {c : ℕ} {p : Parse}
    (hs : s.parse f c p = some s') :
    Moves s s' (∀ handled, p = .upgrade handled →
      ∀ r, (s.socket c).httpMessage = some r → s.Settled r) := by
  have hcall : Still s (s.call [f]) := still_call s (by simpa using hf)
  cases p with
  | incoming statusCode close =>
    obtain ⟨_, rfl⟩ := Option.ite_some_none_eq_some.mp hs
    exact (hcall.trans (still_onIncoming _ c statusCode close)).moves
  | body =>
    obtain rfl := Option.some.inj hs
    exact (still_call s (by simpa [Frame.removes] using hf)).moves
  | complete soon =>
    unfold State.parse at hs
    dsimp only at hs
    split at hs
    · rename_i r _
      obtain rfl := Option.some.inj hs
      exact hcall.moves_trans (onEnd_moves _ c r soon)
    · cases hs
  | fails =>
    obtain rfl := Option.some.inj hs
    exact (still_destroy s c true).moves
  | upgrade handled =>
    obtain ⟨_, rfl⟩ := Option.ite_some_none_eq_some.mp hs
    obtain ⟨m, hd, hm, hp⟩ := onUpgrade_moves s c handled
    exact ⟨m, hd, hm, fun hP => hp (hP handled rfl)⟩
  | done =>
    obtain rfl := Option.some.inj hs
    exact (Still.refl s).moves

/-- Every step is a move. When it is safe it sends away settled requests only, and gives no
request to a socket that leaves. -/
theorem step_does (h : Linked s) (hb : Blamed s) {a : Action} (hs : s.step a = some s') :
    ∃ m, Does s m s' ∧ (Safe s a → Drained s → ∀ r, ¬ s'.Settled r → s.desk.Spares m r) ∧
      (Safe s a → ∀ r c, m = .take r c → ¬ s.Leaving c) := by
  have hmoves : ∀ {P : Prop}, Moves s s' P → (Safe s a → Drained s → P) → ∃ m, Does s m s' ∧
      (Safe s a → Drained s → ∀ r, ¬ s'.Settled r → s.desk.Spares m r) ∧
        (Safe s a → ∀ r c, m = .take r c → ¬ s.Leaving c) := by
    intro P ⟨m, hd, hm, hp⟩ hP
    exact ⟨m, hd, fun hsafe hdrained => hp (hP hsafe hdrained), fun _ r c heq => absurd heq (hm r c)⟩
  cases runs_of_step hs with
  | call hcall => exact hmoves (perform_moves h hcall) fun hsafe _ => hsafe
  | tick htick => exact hmoves (dispatch_moves h hb htick) fun _ _ => trivial
  | execute hstack hparse =>
    refine hmoves ((still_pop hstack).moves_trans (parse_moves rfl hparse)) ?_
    intro hsafe _ handled hp r hr
    subst hp
    exact hsafe _ _ hstack r hr
  | finish hstack hfinishes hparse =>
    refine hmoves ((still_pop hstack).moves_trans (parse_moves rfl hparse)) ?_
    intro _ _ handled hp
    subst hp
    cases hfinishes
  | cycle hstack hcycle =>
    rename_i lookup _
    have hpop := still_pop hstack
    obtain ⟨m, hd, hspares, htake⟩ := (h.still hpop).cycle lookup
    rw [← hcycle] at hd
    refine ⟨m, hpop.does_trans hd, fun _ _ r _ => hspares r, fun hsafe r c heq => ?_⟩
    obtain ⟨hqueue, htaken⟩ := htake r c heq
    exact hsafe hqueue c htaken
  | resume hstack hresume =>
    exact hmoves (resume_moves hstack hresume) fun hsafe hdrained => ⟨hdrained, hsafe⟩
  | returns hstack hpop =>
    subst hpop
    exact hmoves (still_pop hstack).moves fun _ _ => trivial
  | throws hstack hthrow =>
    subst hthrow
    exact hmoves ((still_pop hstack).trans (still_throw _)).moves fun _ _ => trivial

/-- Every request that still waits for its outcome has a place. -/
def Homed (s : State) : Prop :=
  ∀ r < s.requests, ¬ s.Settled r → s.desk.Holds r

theorem Drained.does (h : Drained s) (hd : Does s m s')
    (htake : ∀ r c, m = .take r c → ¬ s.Leaving c) : Drained s' := by
  intro c hc r hl
  rcases hd.leaving c hc with hleaving | hsettled
  · have hl' := hl
    rw [hd.desk] at hl'
    rcases load_move hl' with hl' | hm
    · exact (h c hleaving r hl').mono hd.events
    · exact absurd hleaving (htake r c hm)
  · exact hsettled r hl

theorem Homed.does (h : Homed s) (hd : Does s m s')
    (hspares : ∀ r, ¬ s'.Settled r → s.desk.Spares m r) : Homed s' := by
  intro r hr hsettled
  rw [hd.desk]
  rcases (hd.requests r).mp hr with hr | rfl
  · have hbefore : ¬ s.Settled r := fun hs => hsettled (hs.mono hd.events)
    exact (h r hr hbefore).move hd.enabled (hspares r hsettled)
  · exact holds_enter

end NodeJS.Agent
