import Mathlib.Data.List.Basic
import NodeJS.Tls.Pair

/-! Which calls can wait for each other: each lock is held by one `cycle`, and a `_pull` is called
by the `cycle` that holds the lock for it. -/
namespace NodeJS.Tls

def Frame.within : Frame → Option Phase
  | .cycle _ _ (.within phase) => some phase
  | _ => none

def held (stack : List Frame) : List Phase := stack.filterMap Frame.within

/-- Where a call can stand. If `'secure'` is emitted by a `_pull`, then the pair was not established
when its `cycle` was called. -/
def Frame.On (rest : List Frame) : Frame → Prop
  | .pull side _ pc => ∃ depth established below,
    rest = .cycle depth established (.within (.pull side)) :: below ∧
      ∀ tmp cb took, pc = .secure tmp cb took → established = false
  | .cycle _ _ (.within phase) => phase ∉ held rest
  | _ => True

def Stacked : List Frame → Prop
  | [] => True
  | frame :: rest => frame.On rest ∧ Stacked rest

def Frame.Tells (established : Bool) : Frame → Prop
  | .cycle _ established' _ => established' = true → established = true
  | .pull _ _ (.secure _ _ _) => established = true
  | _ => True

theorem tells_true (frame : Frame) : frame.Tells true := by
  cases frame with
  | cycle depth established place => exact fun _ => rfl
  | pull side havePending pc => cases pc <;> trivial
  | push side pc => trivial
  | «end» side => trivial

structure Framed (s : Pair) : Prop where
  stacked : Stacked s.stack
  locks : ∀ phase, s.locks phase = true ↔ phase ∈ held s.stack
  tells : ∀ frame ∈ s.stack, frame.Tells s.established

theorem held_cons (frame : Frame) (rest : List Frame) :
    held (frame :: rest) = frame.within.toList ++ held rest := by
  unfold held
  cases h : frame.within with
  | none => rw [List.filterMap_cons_none h]; rfl
  | some phase => rw [List.filterMap_cons_some h]; rfl

theorem Framed.congr {s s' : Pair} (h : Framed s) (hstack : s'.stack = s.stack)
    (hlocks : s'.locks = s.locks) (hestablished : s'.established = s.established) : Framed s' := by
  refine ⟨?_, fun phase => ?_, ?_⟩
  · rw [hstack]
    exact h.stacked
  · rw [hstack, hlocks]
    exact h.locks phase
  · rw [hstack, hestablished]
    exact h.tells

/-- A call that holds no lock is made. -/
theorem Framed.call {s s' : Pair} (h : Framed s) {frame : Frame}
    (hstack : s'.stack = frame :: s.stack) (hlocks : s'.locks = s.locks)
    (hestablished : s'.established = s.established) (hon : frame.On s.stack)
    (htells : frame.Tells s.established) (hwithin : frame.within = none) : Framed s' := by
  refine ⟨?_, fun phase => ?_, ?_⟩
  · rw [hstack]
    exact ⟨hon, h.stacked⟩
  · rw [hstack, hlocks, held_cons, hwithin]
    exact h.locks phase
  · rw [hstack, hestablished]
    exact List.forall_mem_cons.mpr ⟨htells, h.tells⟩

/-- A call that holds no lock returns. -/
theorem Framed.pop {s s' : Pair} (h : Framed s) {frame : Frame} (hs : s.stack = frame :: s'.stack)
    (hwithin : frame.within = none) (hlocks : s'.locks = s.locks)
    (hestablished : s'.established = s.established) : Framed s' := by
  have hstacked := h.stacked
  have htells := h.tells
  rw [hs] at hstacked htells
  refine ⟨hstacked.2, fun phase => ?_, ?_⟩
  · rw [hlocks, h.locks phase, hs, held_cons, hwithin]
    rfl
  · rw [hestablished]
    exact (List.forall_mem_cons.mp htells).2

/-- A call that holds no lock goes on. -/
theorem Framed.replace {s s' : Pair} (h : Framed s) {frame frame' : Frame} {rest : List Frame}
    (hs : s.stack = frame :: rest) (hwithin : frame.within = none) (hs' : s'.stack = frame' :: rest)
    (hlocks : s'.locks = s.locks) (hestablished : s'.established = s.established)
    (hon : frame.On rest → frame'.On rest) (htells : frame.Tells s.established →
      frame'.Tells s.established) (hwithin' : frame'.within = none) : Framed s' := by
  have hpop : Framed { s with stack := rest } := h.pop hs hwithin rfl rfl
  have hstacked := h.stacked
  have htold := h.tells
  rw [hs] at hstacked htold
  exact hpop.call hs' hlocks hestablished (hon hstacked.1)
    (htells (List.forall_mem_cons.mp htold).1) hwithin'

/-! ### The operations -/

theorem stream_update (s : Pair) (side : Side) (f : CryptoStream → CryptoStream) :
    (s.update side f).stream side = f (s.stream side) := Function.update_self ..

theorem stream_update_of_ne (s : Pair) {side side' : Side} (h : side' ≠ side)
    (f : CryptoStream → CryptoStream) : (s.update side f).stream side' = s.stream side' :=
  Function.update_of_ne h ..

theorem destroy_frame (s : Pair) : (destroy s).stack = s.stack ∧ (destroy s).locks = s.locks ∧
    (destroy s).established = s.established := by
  unfold destroy
  split_ifs <;> exact ⟨rfl, rfl, rfl⟩

theorem done_frame (s : Pair) (side : Side) : (done s side).stack = s.stack ∧
    (done s side).locks = s.locks ∧ (done s side).established = s.established := by
  unfold done
  dsimp only
  split_ifs
  · exact destroy_frame _
  · exact ⟨rfl, rfl, rfl⟩

theorem error_frame (s : Pair) (e : Err) : (error s e).2.stack = s.stack ∧
    (error s e).2.locks = s.locks ∧ (error s e).2.established = s.established := by
  unfold error
  split_ifs
  · exact destroy_frame s
  · exact destroy_frame s
  · exact ⟨rfl, rfl, rfl⟩

theorem Framed.destroy {s : Pair} (h : Framed s) : Framed (destroy s) := by
  obtain ⟨hstack, hlocks, hestablished⟩ := destroy_frame s
  exact h.congr hstack hlocks hestablished

theorem Framed.done {s : Pair} (h : Framed s) (side : Side) : Framed (done s side) := by
  obtain ⟨hstack, hlocks, hestablished⟩ := done_frame s side
  exact h.congr hstack hlocks hestablished

theorem Framed.update {s : Pair} (h : Framed s) (side : Side) (f : CryptoStream → CryptoStream) :
    Framed (s.update side f) := h.congr rfl rfl rfl

theorem cycle_cases (s : Pair) (depth : ℕ) : (s.doneFlag = true ∧ cycle s depth = s) ∨
    ∃ writeCalled, cycle s depth = { s with
      writeCalled := writeCalled
      stack := .cycle depth s.established (.before (.pull .encrypted)) :: s.stack } := by
  unfold cycle
  by_cases hdone : s.doneFlag = true
  · rw [if_pos hdone]
    exact .inl ⟨hdone, rfl⟩
  · rw [if_neg hdone]
    exact .inr ⟨_, rfl⟩

theorem Framed.cycle {s : Pair} (h : Framed s) (depth : ℕ) : Framed (cycle s depth) := by
  rcases cycle_cases s depth with ⟨-, hsame⟩ | ⟨writeCalled, hcycle⟩
  · rw [hsame]
    exact h
  · rw [hcycle]
    exact h.call rfl rfl rfl trivial id rfl

theorem Framed.write {s : Pair} (h : Framed s) (side : Side) (data : Bytes) (cb : Option ℕ) :
    Framed (write s side data cb) := by
  have hupdate : Framed { s.update side fun x => x.write data cb with writeCalled := true } :=
    h.congr rfl rfl rfl
  exact hupdate.cycle 0

theorem Framed.finish {s : Pair} (h : Framed s) (side : Side) : Framed (finish s side) :=
  (h.update side _).cycle 0

/-- A `_pull` goes on without `'secure'`, or returns. -/
theorem Framed.pulls {s s' : Pair} (h : Framed s) {side : Side} {havePending : Bool} {pc : Pull}
    {rest : List Frame} (hs : s.stack = .pull side havePending pc :: rest)
    (hlocks : s'.locks = s.locks) (hestablished : s'.established = s.established)
    (hs' : s'.stack = rest ∨ ∃ pc', (∀ tmp cb took, pc' ≠ .secure tmp cb took) ∧
      s'.stack = .pull side havePending pc' :: rest) : Framed s' := by
  rcases hs' with hs' | ⟨pc', hpc', hs'⟩
  · exact h.pop (hs' ▸ hs) rfl hlocks hestablished
  · refine h.replace hs rfl hs' hlocks hestablished ?_ (fun _ => ?_) rfl
    · rintro ⟨depth, established, below, hrest, -⟩
      exact ⟨depth, established, below, hrest, fun tmp cb took hpc => absurd hpc (hpc' tmp cb took)⟩
    · cases pc' with
      | secure tmp cb took => exact absurd rfl (hpc' tmp cb took)
      | _ => trivial

/-- What a round of `_pull` does when the binding has answered. -/
theorem pulled_cases {s s' : Pair} {side : Side} {havePending : Bool} {tmp : Bytes}
    {cb : Option ℕ} {took : Bool} {rest : List Frame}
    (h : pulled s side havePending tmp cb took rest = some s') :
    (took = true ∧ ∃ pc, (pc = .callback ∨ pc = .loop) ∧
      s' = { s.update side fun x => x.settle tmp with
        stack := .pull side havePending pc :: rest }) ∨
    took = false ∧ s' = { s.update side fun x => x.unshift tmp cb with stack := rest } := by
  unfold pulled at h
  dsimp only at h
  cases took with
  | true =>
    rw [if_pos rfl] at h
    by_cases hneg : ((s.update side fun x => x.settle tmp).stream side).pendingBytes < 0
    · rw [if_pos hneg] at h
      exact absurd h nofun
    · rw [if_neg hneg] at h
      refine .inl ⟨rfl, _, ?_, (Option.some.inj h).symm⟩
      split_ifs
      · exact .inl rfl
      · exact .inr rfl
  | false =>
    rw [if_neg Bool.false_ne_true] at h
    refine .inr ⟨rfl, (Option.some.inj h).symm.trans (if_neg fun hand => ?_)⟩
    rw [stream_update] at hand
    exact absurd hand.2 (List.cons_ne_nil _ _)

theorem Framed.pulled {s s' : Pair} (h : Framed s) {side : Side} {havePending : Bool} {pc : Pull}
    {rest : List Frame} (hs : s.stack = .pull side havePending pc :: rest) {tmp : Bytes}
    {cb : Option ℕ} {took : Bool} (hpulled : pulled s side havePending tmp cb took rest = some s') :
    Framed s' := by
  rcases pulled_cases hpulled with ⟨-, pc', hpc', rfl⟩ | ⟨-, rfl⟩
  · refine h.pulls hs rfl rfl (.inr ⟨pc', ?_, rfl⟩)
    rcases hpc' with rfl | rfl <;> nofun
  · exact h.pulls hs rfl rfl (.inl rfl)

/-- What a round of the loop of `_pull` does. -/
inductive Round (s : Pair) (side : Side) (havePending : Bool) (rest : List Frame) (a : Answer) :
    Pair → Prop
  | drained (hpending : (s.stream side).pending = []) :
    Round s side havePending rest a { s with stack := .pull side havePending .drain :: rest }
  | left (hpending : (s.stream side).pending = [] ∨ s.doneFlag = true) :
    Round s side havePending rest a { s with stack := rest }
  | endOfFile {pending : List Item} (hpending : (s.stream side).pending = .endOfFile :: pending) :
    Round s side havePending rest a (cycle { ((s.update side CryptoStream.shift).update side
        fun x => { x with ended := true }).update side.other fun x =>
          { x with destroyAfterPush := true } with
      stack := .pull side havePending .endOfFile :: rest } 0)
  | empty {pending : List Item} (hpending : (s.stream side).pending = .data [] :: pending) :
    Round s side havePending rest a { s.update side CryptoStream.shift with
      stack := .pull side havePending .loop :: rest }
  | error {tmp : Bytes} {pending : List Item}
    (hpending : (s.stream side).pending = .data tmp :: pending) (htmp : tmp ≠ []) {e : Err}
    (herror : a.error = some e) {pair : Pair}
    (hpair : pair = (s.update side CryptoStream.shift).update side fun x => x.answered tmp a.took) :
    Round s side havePending rest a { (Tls.error pair e).2 with
      stack := if (Tls.error pair e).1 then .pull side havePending .error :: rest else rest }
  | secure {tmp : Bytes} {pending : List Item}
    (hpending : (s.stream side).pending = .data tmp :: pending) (htmp : tmp ≠ [])
    (hestablished : s.established = false) {cb : Option ℕ} :
    Round s side havePending rest a { (s.update side CryptoStream.shift).update side
        fun x => x.answered tmp a.took with
      established := true
      stack := .pull side havePending (.secure tmp cb a.took) :: rest }
  | answered {tmp : Bytes} {pending : List Item}
    (hpending : (s.stream side).pending = .data tmp :: pending) (htmp : tmp ≠ []) {cb : Option ℕ}
    {s' : Pair} (hpulled : pulled ((s.update side CryptoStream.shift).update side
      fun x => x.answered tmp a.took) side havePending tmp cb a.took rest = some s') :
    Round s side havePending rest a s'

theorem round_of_leave {s : Pair} {side : Side} {havePending : Bool} {rest : List Frame}
    {a : Answer} (h : (s.stream side).pending = [] ∨ s.doneFlag = true) :
    Round s side havePending rest a (leavePull s side havePending rest) := by
  unfold leavePull
  split_ifs with hdrain
  · exact .drained hdrain.2
  · exact .left h

theorem round_of_pull {s s' : Pair} {side : Side} {havePending : Bool} {rest : List Frame}
    {a : Answer} (h : pull s side havePending rest a = some s') :
    Round s side havePending rest a s' := by
  unfold pull at h
  cases hpending : (s.stream side).pending with
  | nil =>
    rw [hpending] at h
    obtain rfl := Option.some.inj h
    exact round_of_leave (.inl hpending)
  | cons item pending =>
    rw [hpending] at h
    dsimp only at h
    by_cases hdone : s.doneFlag = true
    · rw [if_pos hdone] at h
      obtain rfl := Option.some.inj h
      exact round_of_leave (.inr hdone)
    rw [if_neg hdone] at h
    by_cases hlength : ((s.update side CryptoStream.shift).stream side).pending.length ≠
        ((s.update side CryptoStream.shift).stream side).pendingCallbacks.length
    · rw [if_pos hlength] at h
      exact absurd h nofun
    rw [if_neg hlength] at h
    match item, h with
    | .endOfFile, h =>
      obtain rfl := Option.some.inj h
      exact .endOfFile hpending
    | .data [], h =>
      obtain rfl := Option.some.inj h
      exact .empty hpending
    | .data (b :: tmp), h =>
      have htmp : b :: tmp ≠ [] := List.cons_ne_nil b tmp
      dsimp only at h
      cases herror : a.error with
      | some e =>
        rw [herror] at h
        obtain rfl := Option.some.inj h
        exact .error hpending htmp herror rfl
      | none =>
        rw [herror] at h
        dsimp only at h
        split_ifs at h with hsecure
        · obtain rfl := Option.some.inj h
          refine .secure hpending htmp ?_
          simp only [finishesInit, Bool.and_eq_true, Bool.not_eq_true'] at hsecure
          exact hsecure.1.2
        · exact .answered hpending htmp h

theorem Framed.round {s s' : Pair} (h : Framed s) {side : Side} {havePending : Bool}
    {rest : List Frame} (hs : s.stack = .pull side havePending .loop :: rest) {a : Answer}
    (hround : Round s side havePending rest a s') : Framed s' := by
  cases hround with
  | drained => exact h.pulls hs rfl rfl (.inr ⟨.drain, nofun, rfl⟩)
  | left => exact h.pulls hs rfl rfl (.inl rfl)
  | endOfFile =>
    refine Framed.cycle ?_ 0
    exact h.pulls hs rfl rfl (.inr ⟨.endOfFile, nofun, rfl⟩)
  | empty => exact h.pulls hs rfl rfl (.inr ⟨.loop, nofun, rfl⟩)
  | error hpending htmp herror hpair =>
    rename_i tmp pending e pair
    have hframed : Framed pair := hpair ▸ (h.update side _).update side _
    have hstack : pair.stack = s.stack := hpair ▸ rfl
    obtain ⟨-, hlocks, hestablished⟩ := error_frame pair e
    refine hframed.pulls (hstack.trans hs) hlocks hestablished ?_
    split_ifs
    · exact .inr ⟨.error, nofun, rfl⟩
    · exact .inl rfl
  | secure hpending htmp hestablished =>
    have hstacked := h.stacked
    have htells := h.tells
    rw [hs] at hstacked htells
    obtain ⟨⟨depth, established, below, hrest, -⟩, hstacked⟩ := hstacked
    obtain ⟨-, htells⟩ := List.forall_mem_cons.mp htells
    have hold : established = false := by
      rw [hrest] at htells
      have hframe := (List.forall_mem_cons.mp htells).1
      by_contra hnew
      exact absurd ((hframe (Bool.eq_true_of_not_eq_false hnew)).symm.trans hestablished) nofun
    refine ⟨⟨⟨depth, established, below, hrest, fun _ _ _ _ => hold⟩, hstacked⟩,
      fun phase => ?_, ?_⟩
    · have hlocks := h.locks phase
      rw [hs] at hlocks
      exact hlocks
    · exact fun frame _ => tells_true frame
  | answered hpending htmp hpulled =>
    exact Framed.pulled ((h.update side _).update side _) hs hpulled

theorem Framed.top {s : Pair} (h : Framed s) {frame : Frame} {rest : List Frame}
    (hs : s.stack = frame :: rest) : frame.On rest ∧ frame.Tells s.established := by
  have hstacked := h.stacked
  have htells := h.tells
  rw [hs] at hstacked htells
  exact ⟨hstacked.1, (List.forall_mem_cons.mp htells).1⟩

/-- A `_push` goes on, or returns. `'secure'` may be emitted by it. -/
theorem Framed.pushes {s s' : Pair} (h : Framed s) {side : Side} {pc : Push} {rest : List Frame}
    (hs : s.stack = .push side pc :: rest) (hlocks : s'.locks = s.locks)
    (hestablished : s'.established = s.established ∨ s'.established = true)
    (hs' : s'.stack = rest ∨ ∃ pc', s'.stack = .push side pc' :: rest) : Framed s' := by
  have hpop : Framed { s with stack := rest } := h.pop hs rfl rfl rfl
  have hold : ∀ {s'' : Pair}, s''.stack = s'.stack → s''.locks = s'.locks →
      s''.established = s.established → Framed s'' := by
    intro s'' hstack'' hlocks'' hestablished''
    rcases hs' with hs' | ⟨pc', hs'⟩
    · exact hpop.congr (hstack''.trans hs') (hlocks''.trans hlocks) hestablished''
    · exact hpop.call (hstack''.trans hs') (hlocks''.trans hlocks) hestablished'' trivial trivial
        rfl
  rcases hestablished with hestablished | hestablished
  · exact hold rfl rfl hestablished
  · have hs'' : Framed { s' with established := s.established } := hold rfl rfl rfl
    refine ⟨hs''.stacked, hs''.locks, ?_⟩
    rw [hestablished]
    exact fun frame _ => tells_true frame

theorem pushed_frame (s : Pair) (side : Side) (bytesRead : ℕ) (chunkBytes : ℤ)
    (internallyPending : Bool) (rest : List Frame) :
    (pushed s side bytesRead chunkBytes internallyPending rest).locks = s.locks ∧
      (pushed s side bytesRead chunkBytes internallyPending rest).established = s.established ∧
      ((pushed s side bytesRead chunkBytes internallyPending rest).stack = rest ∨
        ∃ pc, (pushed s side bytesRead chunkBytes internallyPending rest).stack =
          .push side pc :: rest) := by
  unfold pushed
  dsimp only
  split_ifs
  · exact ⟨rfl, rfl, .inr ⟨_, rfl⟩⟩
  · obtain ⟨hstack, hlocks, hestablished⟩ := done_frame { s with stack := rest } side
    exact ⟨hlocks, hestablished, .inl hstack⟩
  · exact ⟨rfl, rfl, .inl rfl⟩
  · exact ⟨rfl, rfl, .inr ⟨_, rfl⟩⟩

theorem push_frame (s : Pair) (side : Side) (bytesRead : ℕ) (rest : List Frame) (a : Answer) :
    (push s side bytesRead rest a).locks = s.locks ∧
      ((push s side bytesRead rest a).established = s.established ∨
        (push s side bytesRead rest a).established = true) ∧
      ((push s side bytesRead rest a).stack = rest ∨
        ∃ pc, (push s side bytesRead rest a).stack = .push side pc :: rest) := by
  unfold push
  dsimp only
  cases herror : (if s.doneFlag then none else a.error) with
  | some e =>
    obtain ⟨-, hlocks, hestablished⟩ := error_frame s e
    refine ⟨hlocks, .inl hestablished, ?_⟩
    dsimp only
    split_ifs
    · exact .inr ⟨_, rfl⟩
    · exact .inl rfl
  | none =>
    dsimp only
    by_cases hsecure : finishesInit s a.initFinished = true
    · rw [if_pos hsecure]
      exact ⟨rfl, .inr rfl, .inr ⟨_, rfl⟩⟩
    · rw [if_neg hsecure]
      obtain ⟨hlocks, hestablished, hstack⟩ := pushed_frame s side bytesRead
        (if s.doneFlag = true then -1 else a.chunkBytes) a.internallyPending rest
      exact ⟨hlocks, .inl hestablished, hstack⟩

/-- A `cycle` that does not hold a lock goes on. -/
theorem Framed.passes {s s' : Pair} (h : Framed s) {depth : ℕ} {established : Bool}
    {place place' : Place} {rest : List Frame}
    (hs : s.stack = .cycle depth established place :: rest)
    (hwithin : (Frame.cycle depth established place).within = none)
    (hwithin' : (Frame.cycle depth established place').within = none)
    (hs' : s'.stack = .cycle depth established place' :: rest) (hlocks : s'.locks = s.locks)
    (hestablished : s'.established = s.established) : Framed s' := by
  refine h.replace hs hwithin hs' hlocks hestablished (fun _ => ?_) id hwithin'
  cases place' with
  | within phase => exact absurd hwithin' nofun
  | _ => trivial

theorem after_within (depth : ℕ) (established : Bool) (phase : Phase) :
    (Frame.cycle depth established (.after phase)).within = none := by
  unfold Place.after
  cases phase.next <;> rfl

/-- `cycle` takes the lock for a phase. -/
theorem Framed.take {s : Pair} (h : Framed s) {depth : ℕ} {established : Bool} {phase : Phase}
    {rest : List Frame} (hs : s.stack = .cycle depth established (.before phase) :: rest)
    (hfree : s.locks phase = false) :
    Framed { s with
      locks := Function.update s.locks phase true
      stack := .cycle depth established (.within phase) :: rest } := by
  have hpop : Framed { s with stack := rest } := h.pop hs rfl rfl rfl
  have hnot : phase ∉ held rest := fun hmem =>
    absurd (hfree.symm.trans ((hpop.locks phase).mpr hmem)) nofun
  refine ⟨⟨hnot, hpop.stacked⟩, fun phase' => ?_, ?_⟩
  · dsimp only
    rw [held_cons, Frame.within, Option.toList_some, List.singleton_append, List.mem_cons]
    by_cases heq : phase' = phase
    · rw [heq, Function.update_self]
      exact ⟨fun _ => .inl rfl, fun _ => rfl⟩
    · rw [Function.update_of_ne heq]
      exact (hpop.locks phase').trans ⟨.inr, fun hor => hor.resolve_left heq⟩
  · exact List.forall_mem_cons.mpr ⟨(h.top hs).2, hpop.tells⟩

/-- `cycle` gives the lock back. -/
theorem Framed.release {s : Pair} (h : Framed s) {depth : ℕ} {established : Bool} {phase : Phase}
    {rest : List Frame} (hs : s.stack = .cycle depth established (.within phase) :: rest) :
    Framed { s with
      locks := Function.update s.locks phase false
      stack := .cycle depth established (.after phase) :: rest } := by
  obtain ⟨hnot, htells⟩ := h.top hs
  have hstacked := h.stacked
  have htold := h.tells
  rw [hs] at hstacked htold
  have hpop : Framed { s with locks := Function.update s.locks phase false, stack := rest } := by
    refine ⟨hstacked.2, fun phase' => ?_, (List.forall_mem_cons.mp htold).2⟩
    dsimp only
    by_cases heq : phase' = phase
    · rw [heq, Function.update_self]
      exact ⟨fun h => absurd h nofun, fun hmem => absurd hmem hnot⟩
    · have hlocks := h.locks phase'
      rw [hs, held_cons, Frame.within, Option.toList_some, List.singleton_append,
        List.mem_cons] at hlocks
      rw [Function.update_of_ne heq]
      exact hlocks.trans ⟨fun hor => hor.resolve_left heq, .inr⟩
  refine hpop.call rfl rfl rfl ?_ htells (after_within depth established phase)
  unfold Place.after
  cases phase.next <;> trivial

theorem Framed.enter {s s' : Pair} {phase : Phase} {depth : ℕ} {established : Bool}
    {rest : List Frame} (h : Framed { s with
      stack := .cycle depth established (.within phase) :: rest })
    (henter : enter s phase (.cycle depth established (.within phase) :: rest) = some s') :
    Framed s' := by
  cases phase with
  | pull side =>
    unfold Tls.enter at henter
    dsimp only at henter
    split_ifs at henter
    obtain rfl := Option.some.inj henter
    exact h.call rfl rfl rfl ⟨_, _, _, rfl, nofun⟩ trivial rfl
  | push side =>
    unfold Tls.enter at henter
    dsimp only at henter
    split_ifs at henter
    · obtain rfl := Option.some.inj henter
      exact h
    · obtain rfl := Option.some.inj henter
      exact h.call rfl rfl rfl trivial trivial rfl

/-! ### The steps -/

inductive Goes (s : Pair) (a : Answer) : Pair → Prop
  | skip {depth : ℕ} {established : Bool} {phase : Phase} {rest : List Frame}
    (hs : s.stack = .cycle depth established (.before phase) :: rest)
    (hlock : s.locks phase = true) :
    Goes s a { s with stack := .cycle depth established (.after phase) :: rest }
  | enter {depth : ℕ} {established : Bool} {phase : Phase} {rest : List Frame}
    (hs : s.stack = .cycle depth established (.before phase) :: rest)
    (hlock : s.locks phase = false) {s' : Pair}
    (henter : enter { s with locks := Function.update s.locks phase true } phase
      (.cycle depth established (.within phase) :: rest) = some s') : Goes s a s'
  | release {depth : ℕ} {established : Bool} {phase : Phase} {rest : List Frame}
    (hs : s.stack = .cycle depth established (.within phase) :: rest) :
    Goes s a { s with
      locks := Function.update s.locks phase false
      stack := .cycle depth established (.after phase) :: rest }
  | again {depth : ℕ} {established : Bool} {rest : List Frame}
    (hs : s.stack = .cycle depth established .last :: rest) :
    Goes s a (cycle { s with stack := rest } (depth + 1))
  | leave {depth : ℕ} {established : Bool} {rest : List Frame}
    (hs : s.stack = .cycle depth established .last :: rest)
    (hold : ¬ (established = false ∧ s.established = true)) : Goes s a { s with stack := rest }
  | pull {side : Side} {havePending : Bool} {rest : List Frame}
    (hs : s.stack = .pull side havePending .loop :: rest) {s' : Pair}
    (hround : Round s side havePending rest a s') : Goes s a s'
  | ended {side : Side} {havePending : Bool} {rest : List Frame}
    (hs : s.stack = .pull side havePending .endOfFile :: rest) :
    Goes s a (done { s with stack := rest } side)
  | paused {side : Side} {rest : List Frame} (hs : s.stack = .push side .loop :: rest) :
    Goes s a { s with stack := rest }
  | fill {side : Side} {rest : List Frame} (hs : s.stack = .push side .loop :: rest) :
    Goes s a { s with stack := .push side (.fill 0) :: rest }
  | push {side : Side} {bytesRead : ℕ} {rest : List Frame}
    (hs : s.stack = .push side (.fill bytesRead) :: rest) : Goes s a (push s side bytesRead rest a)
  | finish {side : Side} {rest : List Frame} (hs : s.stack = .end side :: rest) :
    Goes s a (finish { s with stack := rest } side)

theorem goes_of_go {s s' : Pair} {a : Answer} (h : go s a = some s') : Goes s a s' := by
  unfold go at h
  split at h
  next depth established phase rest hs =>
    split_ifs at h with hlock
    · obtain rfl := Option.some.inj h
      exact .skip hs hlock
    · exact .enter hs (Bool.eq_false_iff.mpr hlock) h
  next depth established phase rest hs =>
    obtain rfl := Option.some.inj h
    exact .release hs
  next depth established rest hs =>
    dsimp only at h
    split_ifs at h with hagain
    · obtain rfl := Option.some.inj h
      exact .again hs
    · obtain rfl := Option.some.inj h
      exact .leave hs (not_or.mp hagain).1
  next side havePending rest hs => exact .pull hs (round_of_pull h)
  next side havePending rest hs =>
    obtain rfl := Option.some.inj h
    exact .ended hs
  next side rest hs =>
    split_ifs at h
    · obtain rfl := Option.some.inj h
      exact .paused hs
    · obtain rfl := Option.some.inj h
      exact .fill hs
  next side bytesRead rest hs =>
    obtain rfl := Option.some.inj h
    exact .push hs
  next side rest hs =>
    obtain rfl := Option.some.inj h
    exact .finish hs
  next => exact absurd h nofun

theorem framed_goes {s s' : Pair} {a : Answer} (h : Framed s) (hgoes : Goes s a s') :
    Framed s' := by
  cases hgoes with
  | skip hs hlock => exact h.passes hs rfl (after_within _ _ _) rfl rfl rfl
  | enter hs hlock henter => exact (h.take hs hlock).enter henter
  | release hs => exact h.release hs
  | again hs => exact Framed.cycle (s := { s with stack := _ }) (h.pop hs rfl rfl rfl) _
  | leave hs => exact h.pop hs rfl rfl rfl
  | pull hs hround => exact h.round hs hround
  | ended hs => exact Framed.done (s := { s with stack := _ }) (h.pop hs rfl rfl rfl) _
  | paused hs => exact h.pop hs rfl rfl rfl
  | fill hs => exact h.pushes hs rfl (.inl rfl) (.inr ⟨_, rfl⟩)
  | push hs =>
    obtain ⟨hlocks, hestablished, hstack⟩ := push_frame s _ _ _ a
    exact h.pushes hs hlocks hestablished hstack
  | finish hs => exact Framed.finish (s := { s with stack := _ }) (h.pop hs rfl rfl rfl) _

inductive Returns (s : Pair) (a : Answer) : Pair → Prop
  | pull {side : Side} {havePending : Bool} {tmp : Bytes} {cb : Option ℕ} {took : Bool}
    {rest : List Frame} (hs : s.stack = .pull side havePending (.secure tmp cb took) :: rest)
    {s' : Pair} (hpulled : pulled s side havePending tmp cb took rest = some s') : Returns s a s'
  | callback {side : Side} {havePending : Bool} {rest : List Frame}
    (hs : s.stack = .pull side havePending .callback :: rest) :
    Returns s a { s with stack := .pull side havePending .loop :: rest }
  | pulled {side : Side} {havePending : Bool} {pc : Pull} {rest : List Frame}
    (hs : s.stack = .pull side havePending pc :: rest) (hpc : pc = .drain ∨ pc = .error) :
    Returns s a { s with stack := rest }
  | push {side : Side} {bytesRead : ℕ} {chunkBytes : ℤ} {rest : List Frame}
    (hs : s.stack = .push side (.secure bytesRead chunkBytes) :: rest) :
    Returns s a (pushed s side bytesRead chunkBytes a.internallyPending rest)
  | data {side : Side} {rest : List Frame} (hs : s.stack = .push side .data :: rest) :
    Returns s a { s with stack := .push side .loop :: rest }
  | pushed {side : Side} {rest : List Frame} (hs : s.stack = .push side .error :: rest) :
    Returns s a { s with stack := rest }

theorem returns_of_ret {s s' : Pair} {a : Answer} (h : ret s a = some s') : Returns s a s' := by
  unfold ret at h
  split at h
  next side havePending tmp cb took rest hs => exact .pull hs h
  next side havePending rest hs =>
    obtain rfl := Option.some.inj h
    exact .callback hs
  next side havePending rest hs =>
    obtain rfl := Option.some.inj h
    exact .pulled hs (.inl rfl)
  next side havePending rest hs =>
    obtain rfl := Option.some.inj h
    exact .pulled hs (.inr rfl)
  next side bytesRead chunkBytes rest hs =>
    obtain rfl := Option.some.inj h
    exact .push hs
  next side rest hs =>
    obtain rfl := Option.some.inj h
    exact .data hs
  next side rest hs =>
    obtain rfl := Option.some.inj h
    exact .pushed hs
  next => exact absurd h nofun

theorem framed_returns {s s' : Pair} {a : Answer} (h : Framed s) (hreturns : Returns s a s') :
    Framed s' := by
  cases hreturns with
  | pull hs hpulled => exact h.pulled hs hpulled
  | callback hs => exact h.pulls hs rfl rfl (.inr ⟨.loop, nofun, rfl⟩)
  | pulled hs => exact h.pulls hs rfl rfl (.inl rfl)
  | push hs =>
    obtain ⟨hlocks, hestablished, hstack⟩ := pushed_frame s _ _ _ a.internallyPending _
    exact h.pushes hs hlocks (.inl hestablished) hstack
  | data hs => exact h.pushes hs rfl (.inl rfl) (.inr ⟨_, rfl⟩)
  | pushed hs => exact h.pop hs rfl rfl rfl

inductive Stepped (s : Pair) : Action → Pair → Prop
  | write (side : Side) (data : Bytes) (cb : Option ℕ)
    (hwritable : (s.stream side).writable = true) :
    Stepped s (.write side data cb) (write s side data cb)
  | finish (side : Side) (hwritable : (s.stream side).writable = true) :
    Stepped s (.end side none) (finish s side)
  | endWith (side : Side) (data : Bytes) (hwritable : (s.stream side).writable = true) :
    Stepped s (.end side (some data))
      (write { s with stack := .end side :: s.stack } side data none)
  | endLate (side : Side) (data : Option Bytes) : Stepped s (.end side data) s
  | pause (side : Side) :
    Stepped s (.pause side) (s.update side fun x => { x with paused := true })
  | resume (side : Side) :
    Stepped s (.resume side) (cycle (s.update side fun x => { x with paused := false }) 0)
  | destroy : Stepped s .destroy (destroy s)
  | cycle : Stepped s .cycle (cycle s 0)
  | returns {a : Answer} {s' : Pair} (h : Returns s a s') : Stepped s (.ret a) s'
  | goes {a : Answer} {s' : Pair} (h : Goes s a s') : Stepped s (.go a) s'

theorem stepped_of_step {s s' : Pair} {a : Action} (h : step s a = some s') : Stepped s a s' := by
  cases a with
  | write side data cb =>
    obtain ⟨hcalls, hs'⟩ := Option.ite_none_right_eq_some.mp h
    obtain rfl := Option.some.inj hs'
    exact .write side data cb hcalls.2
  | «end» side data =>
    obtain ⟨-, hs'⟩ := Option.ite_none_right_eq_some.mp h
    obtain rfl := Option.some.inj hs'
    unfold Tls.end
    split_ifs with hlate
    · exact .endLate side data
    · have hwritable := Bool.eq_true_of_not_eq_false (not_or.mp hlate).2
      cases data with
      | none => exact .finish side hwritable
      | some data => exact .endWith side data hwritable
  | pause side =>
    obtain ⟨-, hs'⟩ := Option.ite_none_right_eq_some.mp h
    obtain rfl := Option.some.inj hs'
    exact .pause side
  | resume side =>
    obtain ⟨-, hs'⟩ := Option.ite_none_right_eq_some.mp h
    obtain rfl := Option.some.inj hs'
    exact .resume side
  | destroy =>
    obtain ⟨-, hs'⟩ := Option.ite_none_right_eq_some.mp h
    obtain rfl := Option.some.inj hs'
    exact .destroy
  | cycle =>
    obtain ⟨-, hs'⟩ := Option.ite_none_right_eq_some.mp h
    obtain rfl := Option.some.inj hs'
    exact .cycle
  | ret a => exact .returns (returns_of_ret h)
  | go a => exact .goes (goes_of_go h)

theorem framed_step {s s' : Pair} {a : Action} (h : Framed s) (hstep : step s a = some s') :
    Framed s' := by
  cases stepped_of_step hstep with
  | write side data cb => exact h.write side data cb
  | finish side => exact h.finish side
  | endWith side data =>
    have hcall : Framed { s with stack := .end side :: s.stack } :=
      h.call rfl rfl rfl trivial trivial rfl
    exact hcall.write side data none
  | endLate => exact h
  | pause side => exact h.update side _
  | resume side => exact (h.update side _).cycle 0
  | destroy => exact h.destroy
  | cycle => exact h.cycle 0
  | returns hreturns => exact framed_returns h hreturns
  | goes hgoes => exact framed_goes h hgoes

theorem framed_new (isServer rejectUnauthorized : Bool) :
    Framed (.new isServer rejectUnauthorized) :=
  ⟨trivial, fun _ => ⟨nofun, fun hmem => absurd hmem List.not_mem_nil⟩,
    fun _ hmem => absurd hmem List.not_mem_nil⟩

end NodeJS.Tls
