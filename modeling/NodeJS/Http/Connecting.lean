import NodeJS.Http.Cycle

/-! Sockets that were destroyed before they were connected, and `_cycle`. -/
namespace NodeJS.Agent
open Lib Desk
variable {s s' : State} {c : ℕ}

/-- The flags of a socket: destroyed, connecting, or connected. -/
structure Socket.Sane (k : Socket) : Prop where
  destroyed : k.destroyed = true → k.readable = false ∧ k.writable = false
  httpConnecting : k.httpConnecting = true → k.connecting = true
  connecting : k.connecting = true → k.destroyed = true ∨ k.writable = true ∧ k.readable = false

def Wired (s : State) : Prop := ∀ c, (s.socket c).Sane

theorem Wired.setSocket (h : Wired s) {f : Socket → Socket}
    (hf : (s.socket c).Sane → (f (s.socket c)).Sane) : Wired (s.setSocket c f) := by
  intro d
  by_cases hd : d = c
  · rw [hd, State.socket_setSocket]
    exact hf (h c)
  · rw [State.socket_setSocket_of_ne s hd]
    exact h d

theorem Socket.Sane.destroy {k : Socket} (h : k.Sane) (exception : Bool) :
    (k.destroy exception).Sane := by
  unfold Socket.destroy
  dsimp only
  split_ifs
  · exact ⟨fun _ => ⟨rfl, rfl⟩, h.httpConnecting, fun _ => .inl rfl⟩
  · exact ⟨fun _ => ⟨rfl, rfl⟩, h.httpConnecting, fun _ => .inl rfl⟩

theorem Socket.Sane.lookedUp {k : Socket} (h : k.Sane) (result : Lookup) :
    (k.lookedUp result).Sane := by
  have hopen : ({ k with looking := false, fd := true } : Socket).Sane :=
    ⟨h.destroyed, h.httpConnecting, h.connecting⟩
  cases result with
  | failed => exact ⟨h.destroyed, h.httpConnecting, h.connecting⟩
  | started => exact hopen
  | refused =>
    unfold Socket.lookedUp
    dsimp only
    split_ifs
    · exact hopen
    · exact hopen.destroy true

theorem sane_getConnection (lookup : Option Lookup) :
    ({ getConnection lookup with httpConnecting := true } : Socket).Sane := by
  have hnew : Socket.new.Sane := ⟨nofun, nofun, fun _ => .inr ⟨rfl, rfl⟩⟩
  cases lookup with
  | none => exact ⟨hnew.destroyed, fun _ => rfl, hnew.connecting⟩
  | some result =>
    have hlooked := hnew.lookedUp result
    have hconnecting : (Socket.new.lookedUp result).connecting = true := by
      cases result with
      | failed | started | refused => rfl
    exact ⟨hlooked.destroyed, fun _ => hconnecting, hlooked.connecting⟩

/-! ### The handlers -/

theorem Wired.destroy (h : Wired s) (c : ℕ) (exception : Bool) :
    Wired (s.setSocket c (·.destroy exception)) :=
  h.setSocket fun hk => hk.destroy exception

/-- An update of no flag of `Sane`. -/
theorem Wired.other (h : Wired s) {f : Socket → Socket}
    (hf : ∀ k, (f k).destroyed = k.destroyed ∧ (f k).readable = k.readable ∧
      (f k).writable = k.writable ∧ (f k).connecting = k.connecting ∧
      (f k).httpConnecting = k.httpConnecting) : Wired (s.setSocket c f) := by
  apply h.setSocket
  intro hk
  obtain ⟨hd, hr, hw, hc, hh⟩ := hf (s.socket c)
  refine ⟨?_, ?_, ?_⟩
  · rw [hd, hr, hw]
    exact hk.destroyed
  · rw [hh, hc]
    exact hk.httpConnecting
  · rw [hc, hd, hw, hr]
    exact hk.connecting

theorem Wired.detachSocket (h : Wired s) (r c : ℕ) : Wired (s.detachSocket r c) :=
  h.other (c := c) (f := fun k => { k with httpMessage := none }) fun _ => ⟨rfl, rfl, rfl, rfl, rfl⟩

theorem Wired.removeSocket (h : Wired s) (c : ℕ) : Wired (s.removeSocket c) := by
  rw [removeSocket_eq]
  exact h

theorem Wired.abort (h : Wired s) (r : ℕ) : Wired (s.abort r) := by
  unfold State.abort
  dsimp only
  split_ifs
  · exact h
  · exact h
  · split
    · split_ifs
      · exact Wired.destroy (Wired.detachSocket (s := s.emit (.abort r)) h r _) _ false
      · exact h
    · exact h

theorem Wired.onIncoming (h : Wired s) (c statusCode : ℕ) (close : Bool) :
    Wired (s.onIncoming c statusCode close) := by
  unfold State.onIncoming
  split
  · exact h.destroy c false
  · rename_i r _
    dsimp only
    split_ifs
    · exact h
    · exact h.other (c := c) (f := fun k => { k with reading := some r })
        fun _ => ⟨rfl, rfl, rfl, rfl, rfl⟩

theorem Wired.destroySoon (h : Wired s) (c : ℕ) (soon : Option Bool) :
    Wired (s.destroySoon c soon) := by
  cases soon with
  | some exception => exact h.destroy c exception
  | none => exact h

theorem Wired.onEnd (h : Wired s) (c r : ℕ) (soon : Option Bool) : Wired (s.onEnd c r soon) := by
  obtain ⟨s₁, s₂, hs₁, hsoon, hend⟩ := s.onEnd_cases c r soon
  have hset : Wired s₁ := by
    rw [hs₁]
    exact h.other (c := c) (f := fun k => { k with reading := none })
      fun _ => ⟨rfl, rfl, rfl, rfl, rfl⟩
  have hsecond : Wired s₂ := by
    rcases hsoon with rfl | rfl
    · exact hset
    · exact hset.destroySoon c soon
  rcases hend with hend | hend | ⟨_, hend⟩
  · exact hend ▸ hsecond
  · exact hend ▸ hsecond
  · exact hend ▸ hsecond.detachSocket r c

theorem Wired.onUpgrade (h : Wired s) (c : ℕ) (handled : Bool) : Wired (s.onUpgrade c handled) := by
  have hset : Wired (s.setSocket c fun k => { k with upgraded := true }) :=
    h.other fun _ => ⟨rfl, rfl, rfl, rfl, rfl⟩
  unfold State.onUpgrade
  dsimp only
  split
  · exact hset
  · rename_i r _
    have hremove : Wired ((((s.setSocket c fun k => { k with upgraded := true }).setRequest r
        fun q => { q with res := true }).emit (.upgrade r)).removeSocket c) :=
      Wired.removeSocket (s := ((s.setSocket c fun k => { k with upgraded := true }).setRequest r
        fun q => { q with res := true }).emit (.upgrade r)) hset c
    split_ifs
    · exact hremove
    · exact hremove.destroy c false

theorem Wired.onError (h : Wired s) (c : ℕ) : Wired (s.onError c) := by
  unfold State.onError
  split
  · exact h
  · split
    · dsimp only
      split_ifs
      · exact h
      · exact h
    · exact h

theorem Wired.onClose (h : Wired s) (c : ℕ) : Wired (s.onClose c) := by
  unfold State.onClose
  split
  · exact h
  · split_ifs
    all_goals exact h

/-- The assertion of `_onConnect` holds: a socket that connects is writable. -/
theorem Wired.onConnect (h : Wired s) (hc : (s.socket c).connecting = true)
    (hd : (s.socket c).destroyed = false) : Wired (s.onConnect c) := by
  have hwritable : (s.socket c).writable = true := by
    rcases (h c).connecting hc with hdestroyed | hopen
    · rw [hd] at hdestroyed
      cases hdestroyed
    · exact hopen.1
  unfold State.onConnect
  dsimp only
  rw [State.socket_setSocket, if_pos hwritable]
  intro d
  by_cases heq : d = c
  · have hafter : (((s.setSocket c fun k => { k with connecting := false }).setSocket c fun k =>
        { k with readable := true, httpConnecting := false }).socket c) =
          { s.socket c with connecting := false, readable := true, httpConnecting := false } := by
      rw [State.socket_setSocket, State.socket_setSocket]
    have hsane : ({ s.socket c with
        connecting := false, readable := true, httpConnecting := false } : Socket).Sane := by
      refine ⟨fun hdestroyed => ?_, nofun, nofun⟩
      cases hd.symm.trans hdestroyed
    rw [heq]
    exact hafter ▸ hsane
  · have hafter : (((s.setSocket c fun k => { k with connecting := false }).setSocket c fun k =>
        { k with readable := true, httpConnecting := false }).socket d) = s.socket d := by
      rw [State.socket_setSocket_of_ne _ heq, State.socket_setSocket_of_ne s heq]
    exact hafter ▸ h d

theorem Wired.onEof (h : Wired s) (hr : (s.socket c).readable = true) (soon : Option Bool) :
    Wired (s.onEof c soon) := by
  have hread : Wired (s.setSocket c fun k => { k with readable := false }) := by
    apply h.setSocket
    intro hk
    refine ⟨fun hd => ⟨rfl, (hk.destroyed hd).2⟩, hk.httpConnecting, fun hc => ?_⟩
    rcases hk.connecting hc with hd | hopen
    · cases hr.symm.trans (hk.destroyed hd).1
    · cases hr.symm.trans hopen.2
  obtain ⟨s₁, s₂, rfl, hend, hcall⟩ := s.onEof_cases c soon
  have hsecond : Wired s₂ := by
    rcases hend with rfl | rfl
    · exact hread.destroySoon c soon
    · exact hread.destroy c false
  rcases hcall with hcall | hcall
  · exact hcall ▸ hsecond
  · exact hcall ▸ hsecond

theorem Wired.assignSocket (h : Wired s) (r c : ℕ) : Wired (s.assignSocket r c) := by
  unfold State.assignSocket
  split_ifs
  · exact h
  · exact h.other (c := c) (f := fun k => { k with httpMessage := some r })
      fun _ => ⟨rfl, rfl, rfl, rfl, rfl⟩

theorem Wired.cycle (h : Wired s) (lookup : Option Lookup) : Wired (s.cycle lookup) := by
  unfold State.cycle
  split
  · exact h
  · rename_i first rest _
    split
    · rename_i c _
      dsimp only
      split_ifs
      · exact Wired.assignSocket (s := (s.shift first rest).call [.cycle]) h first c
      · exact h
    · split_ifs
      · unfold State.establishNewConnection
        dsimp only
        split_ifs
        · exact h.setSocket (c := s.connections)
            (f := fun _ => { getConnection lookup with httpConnecting := true })
            fun _ => sane_getConnection lookup
      · exact h

theorem Wired.resume (h : Wired s) {f : Frame} (hs : s.resume f = some s') : Wired s' := by
  cases f with
  | established c =>
    obtain rfl := Option.some.inj hs
    split_ifs
    · exact h.other fun _ => ⟨rfl, rfl, rfl, rfl, rfl⟩
    · exact h
  | destroy c =>
    obtain rfl := Option.some.inj hs
    exact h.destroy c false
  | errored c req =>
    obtain rfl := Option.some.inj hs
    cases req with
    | none => exact h
    | some r => exact h
  | hungUp c =>
    obtain rfl := Option.some.inj hs
    split
    · split_ifs
      · exact h
      · exact h
    · exact h
  | remove c =>
    obtain rfl := Option.some.inj hs
    exact h.removeSocket c
  | user | cycle | execute | finish => cases hs

/-! ### The steps -/

theorem Wired.perform (h : Wired s) {call : Call} (hs : s.perform call = some s') : Wired s' := by
  cases call with
  | appendMessage =>
    obtain rfl := Option.some.inj hs
    exact h
  | keepAlive r value =>
    obtain ⟨_, rfl⟩ := Option.ite_some_none_eq_some.mp hs
    exact h
  | abort r =>
    obtain ⟨_, rfl⟩ := Option.ite_some_none_eq_some.mp hs
    exact h.abort r
  | destroy c exception =>
    obtain ⟨_, rfl⟩ := Option.ite_some_none_eq_some.mp hs
    exact h.destroy c exception

theorem Wired.dispatch (h : Wired s) {tick : Tick} (hs : s.dispatch tick = some s') : Wired s' := by
  cases tick with
  | lookup c result =>
    obtain ⟨_, rfl⟩ := Option.ite_some_none_eq_some.mp hs
    exact h.setSocket fun hk => hk.lookedUp result
  | connect c =>
    obtain ⟨⟨_, _, hc, hd⟩, rfl⟩ := Option.ite_some_none_eq_some.mp hs
    exact h.onConnect hc (by simpa using hd)
  | data c =>
    obtain ⟨_, rfl⟩ := Option.ite_some_none_eq_some.mp hs
    exact h
  | eof c soon =>
    obtain ⟨⟨_, _, hr⟩, rfl⟩ := Option.ite_some_none_eq_some.mp hs
    exact h.onEof hr soon
  | error c =>
    obtain ⟨_, rfl⟩ := Option.ite_some_none_eq_some.mp hs
    have hset : Wired (s.setSocket c fun k => { k with exception := false }) :=
      h.other fun _ => ⟨rfl, rfl, rfl, rfl, rfl⟩
    split_ifs
    · exact hset.onError c
    · exact hset
  | close c =>
    obtain ⟨_, rfl⟩ := Option.ite_some_none_eq_some.mp hs
    have hset : Wired (s.setSocket c fun k => { k with closing := false }) :=
      h.other fun _ => ⟨rfl, rfl, rfl, rfl, rfl⟩
    split_ifs
    · exact hset.onClose c
    · exact hset

theorem Wired.parse (h : Wired s) {f : Frame} {p : Parse} (hs : s.parse f c p = some s') :
    Wired s' := by
  cases p with
  | incoming statusCode close =>
    obtain ⟨_, rfl⟩ := Option.ite_some_none_eq_some.mp hs
    exact Wired.onIncoming (s := s.call [f]) h c statusCode close
  | body =>
    obtain rfl := Option.some.inj hs
    exact h
  | complete soon =>
    unfold State.parse at hs
    dsimp only at hs
    split at hs
    · rename_i r _
      obtain rfl := Option.some.inj hs
      exact Wired.onEnd (s := s.call [f]) h c r soon
    · cases hs
  | fails =>
    obtain rfl := Option.some.inj hs
    exact h.destroy c true
  | upgrade handled =>
    obtain ⟨_, rfl⟩ := Option.ite_some_none_eq_some.mp hs
    exact h.onUpgrade c handled
  | done =>
    obtain rfl := Option.some.inj hs
    exact h

theorem Wired.pop (h : Wired s) (stack : List Frame) : Wired { s with stack := stack } := h

theorem Wired.step (h : Wired s) {a : Action} (hs : s.step a = some s') : Wired s' := by
  cases runs_of_step hs with
  | call hcall => exact h.perform hcall
  | tick htick => exact h.dispatch htick
  | execute _ hparse => exact (h.pop _).parse hparse
  | finish _ _ hparse => exact (h.pop _).parse hparse
  | cycle _ hcycle => exact hcycle ▸ (h.pop _).cycle _
  | resume _ hresume => exact (h.pop _).resume hresume
  | returns _ hpop => exact hpop ▸ h.pop _
  | throws _ hthrow => exact hthrow ▸ h.pop _

/-! ### What `_cycle` takes -/

def Socket.stillborn (k : Socket) : Bool := k.destroyed && k.connecting

/-- The step gives no request to a destroyed socket. -/
def Alive (s s' : State) : Prop :=
  ∀ c < s.connections, (s.socket c).httpMessage = none → (s'.socket c).httpMessage ≠ none →
    (s.socket c).destroyed = false

/-- The step opens no connection, though a request waits that only a new socket can take, and
though there is room for one among the sockets that were not destroyed while they connected. -/
def Declines (s s' : State) : Prop :=
  s.queue ≠ [] ∧ (∀ c ∈ s.sockets, (s.socket c).available = true → (s.socket c).destroyed = true) ∧
    (s.sockets.filter fun c => !(s.socket c).stillborn).length < s.maxSockets ∧
    s'.connections = s.connections

/-- A call of `_cycle` that neither uses a destroyed socket nor waits for one. -/
def Fair (s : State) (a : Action) (s' : State) : Prop :=
  ∀ lookup, a = .cycle lookup → Alive s s' ∧ ¬ Declines s s'

/-- When `_cycle` has a request to place, it does not come upon a socket that was destroyed before
it was connected, nor does one fill the last place of a full agent. -/
def Clear (s : State) (a : Action) (_ : State) : Prop :=
  ∀ lookup, a = .cycle lookup → s.queue ≠ [] →
    (∀ c, s.taken = some c → (s.socket c).stillborn = false) ∧
      (s.taken = none → s.maxSockets ≤ s.sockets.length →
        ∀ c ∈ s.sockets, (s.socket c).stillborn = false)

theorem Socket.Sane.stillborn_iff {k : Socket} (h : k.Sane) (ha : k.available = true) :
    k.stillborn = k.destroyed := by
  unfold Socket.stillborn
  cases hd : k.destroyed with
  | false => rfl
  | true =>
    unfold Socket.available at ha
    have hclosed := h.destroyed hd
    rw [hclosed.2, Bool.false_and, Bool.false_or, Bool.and_eq_true] at ha
    rw [h.httpConnecting ha.2, Bool.true_and]

theorem alive_of_load (h : s'.desk.load = s.desk.load) : Alive s s' := by
  intro c _ hnone hsome
  exact absurd ((congrFun h c).trans hnone) hsome

theorem Linked.fair_taken (h : Linked s) (hw : Wired s) {rest : List ℕ} {r : ℕ}
    (hq : s.queue = r :: rest) (ht : s.taken = some c) (lookup : Option Lookup) :
    Alive s (s.cycle lookup) ∧ ¬ Declines s (s.cycle lookup) ↔
      (s.socket c).stillborn = false := by
  obtain ⟨hmem, hidle⟩ := State.idle_of_taken ht
  have havailable := State.available_of_taken ht
  have hload : ∀ d, ((s.cycle lookup).socket d).httpMessage =
      Function.update s.desk.load c (some r) d :=
    congrFun (congrArg Desk.load (h.cycle_taken hq ht lookup).desk)
  rw [(hw c).stillborn_iff havailable]
  constructor
  · rintro ⟨halive, _⟩
    apply halive c (h.known c hmem) hidle
    rw [hload, Function.update_self]
    exact Option.some_ne_none r
  · intro hlive
    constructor
    · intro d _ hnone hsome
      by_cases hd : d = c
      · rw [hd]
        exact hlive
      · rw [hload, Function.update_of_ne hd] at hsome
        exact absurd hnone hsome
    · rintro ⟨_, hall, _, _⟩
      cases hlive.symm.trans (hall c hmem havailable)

theorem Linked.fair_full (h : Linked s) (hq : s.queue ≠ []) (ht : s.taken = none)
    (hfull : s.maxSockets ≤ s.sockets.length) :
    ¬ Declines s s ↔ ∀ c ∈ s.sockets, (s.socket c).stillborn = false := by
  have hnone : ∀ c ∈ s.sockets, ¬ (s.socket c).available = true := List.find?_eq_none.mp ht
  have hsize : s.maxSockets = s.sockets.length := Nat.le_antisymm hfull h.size
  have hroom : (s.sockets.filter fun c => !(s.socket c).stillborn).length < s.maxSockets ↔
      ∃ c ∈ s.sockets, (s.socket c).stillborn = true := by
    rw [hsize, List.length_filter_lt_length_iff_exists]
    simp
  have hdeclines : Declines s s ↔ ∃ c ∈ s.sockets, (s.socket c).stillborn = true := by
    rw [← hroom]
    constructor
    · rintro ⟨_, _, hlt, _⟩
      exact hlt
    · intro hlt
      exact ⟨hq, fun c hc ha => absurd ha (hnone c hc), hlt, rfl⟩
  rw [hdeclines]
  simp

theorem Linked.fair_iff (h : Linked s) (hw : Wired s) (lookup : Option Lookup) :
    Alive s (s.cycle lookup) ∧ ¬ Declines s (s.cycle lookup) ↔ (s.queue ≠ [] →
      (∀ c, s.taken = some c → (s.socket c).stillborn = false) ∧
        (s.taken = none → s.maxSockets ≤ s.sockets.length →
          ∀ c ∈ s.sockets, (s.socket c).stillborn = false)) := by
  cases hq : s.queue with
  | nil =>
    have hcycle : s.cycle lookup = s := by
      unfold State.cycle
      rw [hq]
    rw [hcycle]
    exact iff_of_true ⟨alive_of_load rfl, fun hd => hd.1 hq⟩ fun hne => absurd rfl hne
  | cons first rest =>
    have hne : s.queue ≠ [] := hq ▸ List.cons_ne_nil _ _
    cases ht : s.taken with
    | some c =>
      rw [h.fair_taken hw hq ht lookup]
      constructor
      · intro hlive _
        refine ⟨fun d hd => ?_, nofun⟩
        rw [← Option.some.inj hd]
        exact hlive
      · intro hclear
        exact (hclear (List.cons_ne_nil _ _)).1 c rfl
    | none =>
      rw [cycle_of_taken_none hq ht]
      split_ifs with hroom
      · have hdoes := h.establishNewConnection hroom lookup
        have hload : (s.establishNewConnection lookup).desk.load = s.desk.load := by
          rw [hdoes.desk]
          rfl
        refine iff_of_true ⟨alive_of_load hload, fun hd => ?_⟩ fun _ => ?_
        · have hopened := (hdoes.connections s.connections).mpr (.inr rfl)
          rw [hd.2.2.2] at hopened
          exact Nat.lt_irrefl _ hopened
        · exact ⟨nofun, fun _ hfull => absurd hroom (Nat.not_lt.mpr hfull)⟩
      · have hfull := Nat.not_lt.mp hroom
        rw [and_iff_right (alive_of_load rfl), h.fair_full hne ht hfull]
        constructor
        · intro hall _
          exact ⟨nofun, fun _ _ => hall⟩
        · intro hclear
          exact (hclear (List.cons_ne_nil _ _)).2 rfl hfull

theorem Linked.fair_step_iff (h : Linked s) (hw : Wired s) {a : Action}
    (hs : s.step a = some s') : Fair s a s' ↔ Clear s a s' := by
  refine forall_congr' fun lookup => forall_congr' fun ha => ?_
  subst ha
  cases runs_of_step hs with
  | cycle hstack hcycle =>
    subst hcycle
    exact (h.still (still_pop hstack)).fair_iff (hw.pop _) lookup

theorem wired_new (n : ℕ) : Wired (State.new n) :=
  fun _ => ⟨nofun, nofun, fun _ => .inr ⟨rfl, rfl⟩⟩

/-- `_cycle` uses no destroyed socket and waits for none, just when it comes upon none that was
destroyed before it was connected. -/
theorem cycle_fair_iff (n : ℕ) (as : List Action) :
    Along State.step Fair (State.new n) as ↔ Along State.step Clear (State.new n) as :=
  along_congr (I := fun s => Kept s ∧ Wired s) ⟨kept_new n, wired_new n⟩
    (fun _ _ _ h hs => ⟨h.1.step hs, h.2.step hs⟩)
    (fun _ _ _ h hs => h.1.linked.fair_step_iff h.2 hs) as

/-- After the abort of a request whose socket is still connecting the next request is given to the
destroyed socket. -/
theorem cycle_takes_destroyed : ¬ ∀ n as, Along State.step Fair (State.new n) as := by
  intro h
  let as : List Action := [.call .appendMessage, .cycle none, .cycle none, .returns, .cycle none,
    .resume, .call (.abort 0), .call .appendMessage]
  have hrun : (run State.step (State.new 5) as).map (fun s =>
      (s.connections, (s.socket 0).httpMessage, (s.socket 0).destroyed,
        (s.step (.cycle none)).map fun s => (s.socket 0).httpMessage)) =
          some (1, none, true, some (some 1)) := by decide +kernel
  obtain ⟨s, hs, hs'⟩ := Option.map_eq_some_iff.mp hrun
  obtain ⟨hconnections, hs'⟩ := Prod.mk.inj hs'
  obtain ⟨hidle, hs'⟩ := Prod.mk.inj hs'
  obtain ⟨hdestroyed, hcycle⟩ := Prod.mk.inj hs'
  obtain ⟨s', hstep, htaken⟩ := Option.map_eq_some_iff.mp hcycle
  have hfair := (h 5 (as ++ [.cycle none])).last hs hstep none rfl
  have hlive := hfair.1 0 (by omega) hidle (by simp [htaken])
  cases hdestroyed.symm.trans hlive

end NodeJS.Agent
