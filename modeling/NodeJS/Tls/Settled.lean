import NodeJS.Tls.Accounts

/-! When the outermost `cycle` has returned: no stream has something pending that the binding was
not asked to take. -/
namespace NodeJS.Tls
open Lib

/-- The `cycle` has yet to pull the stream. -/
def Place.comes (side : Side) : Place → Bool
  | .before (.pull .encrypted) => true
  | .within (.pull .encrypted) => side = .cleartext
  | .before (.pull .cleartext) => side = .cleartext
  | _ => false

/-- The `_pull` goes round its loop again. -/
def Pull.loops : Pull → Bool
  | .loop => true
  | .secure _ _ took => took
  | .callback => true
  | _ => false

/-- The call looks at what is pending before it returns: it is a `_pull` in its loop, or a `cycle`
that comes to the stream or will begin again, with the lock free. -/
def Frame.heeds (established : Bool) (side : Side) (rest : List Frame) : Frame → Prop
  | .cycle _ established' place => .pull side ∉ held rest ∧
    (place.comes side = true ∨ established' = false ∧ established = true)
  | .pull side' _ pc => side' = side ∧ pc.loops = true
  | _ => False

def Heeded (established : Bool) (side : Side) : List Frame → Prop
  | [] => False
  | frame :: rest => frame.heeds established side rest ∨ Heeded established side rest

/-- No `_pull` of the stream is running, or some call looks at what is pending. -/
def Attended (s : Pair) (side : Side) : Prop :=
  s.locks (.pull side) = false ∨ Heeded s.established side s.stack

/-- Whether `_pull` returns when it has taken this element, and does not go on with its loop. -/
def Item.stops (s : Pair) (a : Answer) : Item → Bool
  | .endOfFile => true
  | .data b => !b.isEmpty && a.error.any fun e => (error s e).1

/-- A stream is written to or ended where this is noticed, and nothing is pending when a `_pull`
stops at `END_OF_FILE` or at an error, or this is noticed. -/
def Noticed (s : Pair) : Action → Prop
  | .write side _ _ => Attended s side
  | .end side _ => (s.stream side).writable = true → Attended s side
  | .go a => match s.stack with
    | .end side :: _ => Attended s side
    | .pull side _ .loop :: rest => s.doneFlag = false →
      ∀ item ∈ (s.stream side).pending.head?, item.stops s a = true →
        (s.stream side).pending.tail = [] ∨ Heeded s.established side rest
    | _ => True
  | _ => True

/-- Nothing is pending, or the binding has refused it, or some call looks at it. -/
def Tended (s : Pair) (side : Side) : Prop :=
  (s.stream side).pending = [] ∨ (s.stream side).refused = true ∨
    Heeded s.established side s.stack

/-! ### The stack -/

theorem Heeded.cons {established : Bool} {side : Side} {rest : List Frame}
    (h : Heeded established side rest) (frame : Frame) : Heeded established side (frame :: rest) :=
  .inr h

theorem Heeded.established {established : Bool} {side : Side} {stack : List Frame}
    (h : Heeded established side stack) : Heeded true side stack := by
  induction stack with
  | nil => exact h
  | cons frame rest ih =>
    refine h.imp (fun hframe => ?_) ih
    cases frame with
    | cycle depth established' place =>
      exact ⟨hframe.1, hframe.2.imp id fun hold => ⟨hold.1, rfl⟩⟩
    | _ => exact hframe

/-- The call does not look at what is pending for the stream. -/
theorem Heeded.rest {established : Bool} {side : Side} {frame : Frame} {rest : List Frame}
    (h : Heeded established side (frame :: rest)) (hframe : ¬ frame.heeds established side rest) :
    Heeded established side rest := h.resolve_left hframe

theorem not_heeds_of_ne {established : Bool} {side side' : Side} (h : side' ≠ side)
    (havePending : Bool) (pc : Pull) (rest : List Frame) :
    ¬ (Frame.pull side' havePending pc).heeds established side rest := fun hheeds => h hheeds.1

theorem comes_after {side : Side} {phase : Phase} (h : (Place.before phase).comes side = true)
    (hphase : phase ≠ .pull side) : (Place.within phase).comes side = true ∧
      (Place.after phase).comes side = true := by
  match side, phase with
  | .cleartext, .pull .encrypted => exact ⟨rfl, rfl⟩
  | .cleartext, .pull .cleartext => exact absurd rfl hphase
  | .encrypted, .pull .encrypted => exact absurd rfl hphase
  | .encrypted, .pull .cleartext => exact absurd h nofun
  | side, .push side' => exact absurd h nofun

theorem comes_release {side : Side} {phase : Phase} (h : (Place.within phase).comes side = true) :
    (Place.after phase).comes side = true := by
  match side, phase with
  | .cleartext, .pull .encrypted => rfl
  | .encrypted, .pull .encrypted => exact absurd h nofun
  | side, .pull .cleartext => exact absurd h nofun
  | side, .push side' => exact absurd h nofun

theorem Tended.of_stack {s s' : Pair} {side : Side} (h : Tended s side)
    (hstream : Alike (s.stream side) (s'.stream side))
    (hstack : Heeded s.established side s.stack → Heeded s'.established side s'.stack) :
    Tended s' side := by
  unfold Tended
  rw [hstream.pending, hstream.refused]
  exact h.imp id (Or.imp id hstack)

/-! ### A pair that is done -/

theorem doneFlag_destroy (s : Pair) : (destroy s).doneFlag = true := by
  unfold destroy
  split_ifs with h
  · exact h
  · rfl

theorem doneFlag_done {s : Pair} (h : s.doneFlag = true) (side : Side) :
    (done s side).doneFlag = true := by
  unfold done
  dsimp only
  split_ifs
  · exact doneFlag_destroy _
  · exact h

theorem doneFlag_cycle (s : Pair) (depth : ℕ) : (cycle s depth).doneFlag = s.doneFlag := by
  unfold cycle
  split_ifs <;> rfl

theorem doneFlag_error {s : Pair} {e : Err} (h : s.doneFlag = true ∨ (error s e).1 = false) :
    (error s e).2.doneFlag = true := by
  unfold error at h ⊢
  split_ifs with hold hnone
  · exact doneFlag_destroy s
  · exact doneFlag_destroy s
  · rw [if_neg hold, if_neg hnone] at h
    exact h.resolve_right nofun

theorem doneFlag_pushed {s : Pair} (h : s.doneFlag = true) (side : Side) (bytesRead : ℕ)
    (chunkBytes : ℤ) (internallyPending : Bool) (rest : List Frame) :
    (pushed s side bytesRead chunkBytes internallyPending rest).doneFlag = true := by
  unfold pushed
  dsimp only
  split_ifs
  · exact h
  · exact doneFlag_done (s := { s with stack := rest }) h side
  · exact h
  · exact h

theorem doneFlag_push {s : Pair} (h : s.doneFlag = true) (side : Side) (bytesRead : ℕ)
    (rest : List Frame) (a : Answer) : (push s side bytesRead rest a).doneFlag = true := by
  unfold push
  dsimp only
  rw [if_pos h]
  dsimp only
  split_ifs
  · exact h
  · exact doneFlag_pushed h side bytesRead _ _ rest

theorem doneFlag_round {s s' : Pair} {side : Side} {havePending : Bool} {rest : List Frame}
    {a : Answer} (h : s.doneFlag = true) (hround : Round s side havePending rest a s') :
    s'.doneFlag = true := by
  cases hround with
  | endOfFile => exact (doneFlag_cycle _ 0).trans h
  | error hpending htmp herror hpair => exact doneFlag_error (.inl (hpair ▸ h))
  | answered hpending htmp hpulled =>
    rcases pulled_cases hpulled with ⟨-, pc, -, rfl⟩ | ⟨-, rfl⟩ <;> exact h
  | _ => exact h

theorem doneFlag_step {s s' : Pair} {a : Action} (h : s.doneFlag = true)
    (hstep : step s a = some s') : s'.doneFlag = true := by
  cases stepped_of_step hstep with
  | write => exact (doneFlag_cycle _ 0).trans h
  | finish => exact (doneFlag_cycle _ 0).trans h
  | endWith => exact (doneFlag_cycle _ 0).trans h
  | endLate => exact h
  | pause => exact h
  | resume => exact (doneFlag_cycle _ 0).trans h
  | destroy => exact doneFlag_destroy s
  | cycle => exact (doneFlag_cycle s 0).trans h
  | returns hreturns =>
    cases hreturns with
    | pull hs hpulled => rcases pulled_cases hpulled with ⟨-, pc, -, rfl⟩ | ⟨-, rfl⟩ <;> exact h
    | push => exact doneFlag_pushed h _ _ _ _ _
    | _ => exact h
  | goes hgoes =>
    cases hgoes with
    | enter hs hlock henter =>
      unfold enter at henter
      split at henter
      · dsimp only at henter
        split_ifs at henter
        obtain rfl := Option.some.inj henter
        exact h
      · split_ifs at henter
        · obtain rfl := Option.some.inj henter
          exact h
        · obtain rfl := Option.some.inj henter
          exact h
    | again => exact (doneFlag_cycle _ _).trans h
    | pull hs hround => exact doneFlag_round h hround
    | ended =>
      rename_i side havePending rest hs
      exact doneFlag_done (s := { s with stack := rest }) h side
    | push => exact doneFlag_push h _ _ _ _
    | finish => exact (doneFlag_cycle _ 0).trans h
    | _ => exact h

/-! ### What a step does to what is pending -/

def Settled (s : Pair) : Prop := s.doneFlag = true ∨ ∀ side, Tended s side

section
variable {s s' : Pair} {side : Side} {a : Answer} {rest : List Frame}

/-- A `cycle` that begins comes to each stream whose lock is free. -/
theorem settled_cycle (hframed : Framed s) (h : ∀ side, Attended s side ∨ Tended s side)
    (depth : ℕ) : Settled (cycle s depth) := by
  rcases cycle_cases s depth with ⟨hdone, hsame⟩ | ⟨writeCalled, hcycle⟩
  · rw [hsame]
    exact .inl hdone
  rw [hcycle]
  refine .inr fun side => ?_
  have hcons : Heeded s.established side s.stack → Heeded s.established side
      (.cycle depth s.established (.before (.pull .encrypted)) :: s.stack) := fun h => h.cons _
  rcases h side with (hfree | hheeded) | htended
  · have hnot : .pull side ∉ held s.stack := fun hmem =>
      absurd (hfree.symm.trans ((hframed.locks _).mpr hmem)) nofun
    exact .inr (.inr (.inl ⟨hnot, .inl rfl⟩))
  · exact .inr (.inr (hcons hheeded))
  · exact htended.imp id (Or.imp id hcons)

/-- A stream is written to or ended where this is noticed. -/
theorem settled_queue (hframed : Framed s') (h : ∀ side, Tended s side)
    (hattended : Attended s side)
    (hother : ∀ side', side' ≠ side → s'.stream side' = s.stream side')
    (hstack : s'.stack = s.stack) (hlocks : s'.locks = s.locks)
    (hestablished : s'.established = s.established) : Settled (cycle s' 0) := by
  refine settled_cycle hframed (fun side' => ?_) 0
  by_cases heq : side' = side
  · left
    unfold Attended
    rw [heq, hlocks, hestablished, hstack]
    exact hattended
  · right
    unfold Tended
    rw [hother side' heq, hestablished, hstack]
    exact h side'

theorem settled_write (hframed : Framed s) (h : ∀ side, Tended s side) (hattended : Attended s side)
    (data : Bytes) (cb : Option ℕ) : Settled (write s side data cb) := by
  refine settled_queue (s := s) (hframed.congr rfl rfl rfl) h hattended ?_ rfl rfl rfl
  exact fun side' hne => stream_update_of_ne s hne fun x => x.write data cb

theorem settled_finish (hframed : Framed s) (h : ∀ side, Tended s side)
    (hattended : Attended s side) : Settled (finish s side) :=
  settled_queue (hframed.update side _) h hattended (fun _ hne => stream_update_of_ne s hne _)
    rfl rfl rfl

/-- The calls change, the streams do not. -/
theorem settled_moves (h : ∀ side, Tended s side)
    (halike : ∀ side, Alike (s.stream side) (s'.stream side))
    (hstack : ∀ side, Heeded s.established side s.stack → Heeded s'.established side s'.stack) :
    Settled s' := .inr fun side => (h side).of_stack (halike side) (hstack side)

/-- A call goes on or returns that does not look at what is pending. -/
theorem heeded_above {frame : Frame} (hs : s.stack = frame :: rest)
    (hframe : ¬ frame.heeds s.established side rest)
    (hestablished : s'.established = s.established ∨ s'.established = true)
    (hs' : s'.stack = rest ∨ ∃ frame', s'.stack = frame' :: rest)
    (h : Heeded s.established side s.stack) : Heeded s'.established side s'.stack := by
  rw [hs] at h
  have hrest : Heeded s'.established side rest := by
    rcases hestablished with hold | hnew
    · rw [hold]
      exact h.rest hframe
    · rw [hnew]
      exact (h.rest hframe).established
  rcases hs' with hs' | ⟨frame', hs'⟩
  · rw [hs']
    exact hrest
  · rw [hs']
    exact hrest.cons frame'

/-- A `cycle` goes on with its phases. -/
theorem heeded_cycle {depth : ℕ} {established : Bool} {place place' : Place}
    (hs : s.stack = .cycle depth established place :: rest)
    (hcomes : .pull side ∉ held rest → place.comes side = true → place'.comes side = true)
    (h : Heeded s.established side s.stack) :
    Heeded s.established side (.cycle depth established place' :: rest) := by
  rw [hs] at h
  exact h.imp (fun hframe => ⟨hframe.1, hframe.2.imp (hcomes hframe.1) id⟩) id

theorem alike_of_ne (s : Pair) {side side' : Side} (h : side' ≠ side)
    (f : CryptoStream → CryptoStream) :
    Alike (s.stream side') ((s.update side f).stream side') := by
  rw [stream_update_of_ne s h f]
  exact .refl _

/-- What is pending for the other stream stays as it is in a round of `_pull`. -/
theorem tended_other {havePending : Bool} {pc : Pull} {side' : Side} (h : Tended s side')
    (hs : s.stack = .pull side havePending pc :: rest) (hne : side' ≠ side)
    (halike : Alike (s.stream side') (s'.stream side'))
    (hestablished : s'.established = s.established ∨ s'.established = true)
    (hs' : s'.stack = rest ∨ ∃ frame', s'.stack = frame' :: rest) : Tended s' side' :=
  h.of_stack halike
    (heeded_above hs (not_heeds_of_ne hne.symm havePending pc rest) hestablished hs')

/-- A `_pull` goes on or returns, and its own stream is in order. -/
theorem settled_side {havePending : Bool} {pc : Pull}
    (hs : s.stack = .pull side havePending pc :: rest)
    (hother : ∀ side', side' ≠ side → Tended s side')
    (halike : ∀ side', side' ≠ side → Alike (s.stream side') (s'.stream side'))
    (hestablished : s'.established = s.established ∨ s'.established = true)
    (hs' : s'.stack = rest ∨ ∃ frame', s'.stack = frame' :: rest) (h : Tended s' side) :
    Settled s' := by
  refine .inr fun side' => ?_
  by_cases heq : side' = side
  · exact heq ▸ h
  · exact tended_other (hother side' heq) hs heq (halike side' heq) hestablished hs'

/-- The binding has answered, and `maybeInitFinished` has returned. -/
theorem settled_pulled {havePending : Bool} {pc : Pull} {tmp : Bytes} {cb : Option ℕ} {took : Bool}
    (hs : s.stack = .pull side havePending pc :: rest)
    (hother : ∀ side', side' ≠ side → Tended s side')
    (hback : took = false → (s.stream side).refused = true ∨ Heeded s.established side rest)
    (hpulled : pulled s side havePending tmp cb took rest = some s') : Settled s' := by
  rcases pulled_cases hpulled with ⟨-, pc', hpc', rfl⟩ | ⟨htook, rfl⟩
  · have hloops : pc'.loops = true := by rcases hpc' with rfl | rfl <;> rfl
    exact settled_side hs hother (fun _ hne => alike_of_ne s hne fun x => x.settle tmp) (.inl rfl)
      (.inr ⟨_, rfl⟩) (.inr (.inr (.inl ⟨rfl, hloops⟩)))
  · refine settled_side hs hother (fun _ hne => alike_of_ne s hne fun x => x.unshift tmp cb)
      (.inl rfl) (.inl rfl) (.inr ((hback htook).imp (fun hrefused => ?_) id))
    dsimp only
    rw [stream_update]
    exact hrefused

theorem error_emits {s s' : Pair} (hestablished : s'.established = s.established)
    (hserver : s'.isServer = s.isServer)
    (hreject : s'.rejectUnauthorized = s.rejectUnauthorized) (e : Err) :
    (error s' e).1 = (error s e).1 := by
  unfold error
  rw [hestablished, hserver, hreject]
  split_ifs <;> rfl

theorem alike_marked (s : Pair) (side side' : Side) : Alike (s.stream side')
    ((s.update side fun x => { x with destroyAfterPush := true }).stream side') :=
  update_alike ⟨rfl, rfl, rfl, rfl, rfl, rfl, rfl, id⟩ side'

theorem pending_answered (x : CryptoStream) (tmp : Bytes) (took : Bool) :
    (x.answered tmp took).pending = x.pending := by
  cases took <;> rfl

theorem refused_answered {took : Bool} (x : CryptoStream) (tmp : Bytes) (h : took = false) :
    (x.answered tmp took).refused = true := by
  rw [h]
  rfl

theorem alike_answered (s : Pair) {side side' : Side} (hne : side' ≠ side) (tmp : Bytes)
    (took : Bool) : Alike (s.stream side')
      (((s.update side CryptoStream.shift).update side fun x => x.answered tmp took).stream side') :=
  (alike_of_ne s hne _).trans (alike_of_ne _ hne _)

/-- `_pull` comes to `END_OF_FILE`. -/
theorem settled_endOfFile {havePending : Bool} (hframed : Framed s) (h : ∀ side, Tended s side)
    (hs : s.stack = .pull side havePending .loop :: rest)
    (hleft : (s.stream side).pending.tail = [] ∨ Heeded s.established side rest) :
    Settled (cycle { ((s.update side CryptoStream.shift).update side
        fun x => { x with ended := true }).update side.other fun x =>
          { x with destroyAfterPush := true } with
      stack := .pull side havePending .endOfFile :: rest } 0) := by
  refine settled_cycle ?_ (fun side' => ?_) 0
  · exact hframed.pulls hs rfl rfl (.inr ⟨.endOfFile, nofun, rfl⟩)
  by_cases heq : side' = side
  · subst heq
    rcases hleft with hnone | hheeded
    · right
      left
      dsimp only
      rw [(alike_marked _ side'.other side').pending, stream_update, stream_update]
      exact hnone
    · exact .inl (.inr (hheeded.cons _))
  · right
    refine tended_other (h side') hs heq ?_ (.inl rfl) (.inr ⟨_, rfl⟩)
    have hended : Alike (s.stream side') (((s.update side CryptoStream.shift).update side
        fun x => { x with ended := true }).stream side') :=
      (alike_of_ne s heq _).trans (alike_of_ne _ heq _)
    exact hended.trans (alike_marked _ side.other side')

/-- `_pull` finds an error, and drops the Buffer. -/
theorem settled_error {havePending : Bool} {tmp : Bytes} {took : Bool} {e : Err}
    (h : ∀ side, Tended s side) (hs : s.stack = .pull side havePending .loop :: rest)
    (hleft : (error s e).1 = true → (s.stream side).pending.tail = [] ∨
      Heeded s.established side rest) {pair : Pair}
    (hpair : pair = (s.update side CryptoStream.shift).update side fun x => x.answered tmp took) :
    Settled { (Tls.error pair e).2 with
      stack := if (Tls.error pair e).1 then .pull side havePending .error :: rest else rest } := by
  obtain ⟨-, -, hestablished⟩ := error_frame pair e
  have hold : pair.established = s.established := hpair ▸ rfl
  have halike : ∀ side', side' ≠ side → Alike (s.stream side') (pair.stream side') :=
    hpair ▸ fun _ hne => alike_answered s hne tmp took
  have hsame : (error s e).1 = (error pair e).1 :=
    error_emits hold.symm (hpair ▸ rfl) (hpair ▸ rfl) e
  cases hemits : (error pair e).1 with
  | false => exact .inl (doneFlag_error (.inr hemits))
  | true =>
    refine settled_side hs (fun side' _ => h side') (fun side' hne => ?_)
      (.inl (hestablished.trans hold)) (.inr ⟨_, rfl⟩) ?_
    · exact (halike side' hne).trans (error_alike pair e side')
    rcases hleft (hsame.trans hemits) with hnone | hheeded
    · left
      dsimp only
      rw [(error_alike pair e side).pending, hpair, stream_update, pending_answered, stream_update]
      exact hnone
    · right
      right
      dsimp only
      rw [hestablished, hold, if_pos rfl]
      exact hheeded.cons _

/-- A round of `_pull` takes all that is pending, or it is noticed what is left. -/
theorem settled_round {havePending : Bool} (hframed : Framed s) (h : ∀ side, Tended s side)
    (hs : s.stack = .pull side havePending .loop :: rest)
    (hnoticed : ∀ item ∈ (s.stream side).pending.head?, item.stops s a = true →
      (s.stream side).pending.tail = [] ∨ Heeded s.established side rest)
    (hround : Round s side havePending rest a s') : Settled s' := by
  have hother : ∀ side', side' ≠ side → Tended s side' := fun side' _ => h side'
  cases hround with
  | drained hpending =>
    exact settled_side hs hother (fun _ _ => .refl _) (.inl rfl) (.inr ⟨_, rfl⟩) (.inl hpending)
  | left hpending =>
    rcases hpending with hpending | hdone
    · exact settled_side hs hother (fun _ _ => .refl _) (.inl rfl) (.inl rfl) (.inl hpending)
    · exact .inl hdone
  | endOfFile hpending =>
    have hhead : .endOfFile ∈ (s.stream side).pending.head? := congrArg List.head? hpending
    exact settled_endOfFile hframed h hs (hnoticed _ hhead rfl)
  | empty hpending =>
    exact settled_side hs hother (fun _ hne => alike_of_ne s hne _) (.inl rfl) (.inr ⟨_, rfl⟩)
      (.inr (.inr (.inl ⟨rfl, rfl⟩)))
  | error hpending htmp herror hpair =>
    rename_i tmp pending e pair
    have hhead : .data tmp ∈ (s.stream side).pending.head? := congrArg List.head? hpending
    refine settled_error h hs (fun hemits => hnoticed _ hhead ?_) hpair
    unfold Item.stops
    rw [herror]
    simp [htmp, hemits]
  | secure hpending htmp hestablished =>
    rename_i tmp pending cb
    refine settled_side hs hother (fun _ hne => alike_answered s hne tmp a.took) (.inr rfl)
      (.inr ⟨_, rfl⟩) (.inr ?_)
    cases htook : a.took with
    | true => exact .inr (.inl ⟨rfl, rfl⟩)
    | false =>
      left
      dsimp only
      rw [stream_update]
      exact refused_answered _ tmp rfl
  | answered hpending htmp hpulled =>
    rename_i tmp pending cb
    refine settled_pulled (s := (s.update side CryptoStream.shift).update side fun x =>
      x.answered tmp a.took) hs (fun side' hne => ?_) (fun htook => .inl ?_) hpulled
    · exact (h side').of_stack (alike_answered s hne tmp a.took) id
    · rw [stream_update]
      exact refused_answered _ tmp htook

/-- `cycle` takes the lock for a phase, and calls. -/
theorem settled_enter {phase : Phase} {depth : ℕ} {established : Bool} (h : ∀ side, Tended s side)
    (hs : s.stack = .cycle depth established (.before phase) :: rest)
    (henter : enter { s with locks := Function.update s.locks phase true } phase
      (.cycle depth established (.within phase) :: rest) = some s') : Settled s' := by
  have hwithin : ∀ side, phase ≠ .pull side → Heeded s.established side s.stack →
      Heeded s.established side (.cycle depth established (.within phase) :: rest) :=
    fun side hne => heeded_cycle hs fun _ hcomes => (comes_after hcomes hne).1
  cases phase with
  | pull side =>
    unfold enter at henter
    dsimp only at henter
    split_ifs at henter
    obtain rfl := Option.some.inj henter
    refine settled_moves h (fun _ => .refl _) fun side' hheeded => ?_
    by_cases heq : side = side'
    · exact .inl ⟨heq, rfl⟩
    · exact (hwithin side' (fun hphase => heq (Phase.pull.inj hphase)) hheeded).cons _
  | push side =>
    unfold enter at henter
    dsimp only at henter
    split_ifs at henter
    · obtain rfl := Option.some.inj henter
      exact settled_moves h (fun _ => .refl _) fun side' => hwithin side' nofun
    · obtain rfl := Option.some.inj henter
      exact settled_moves h (fun _ => .refl _) fun side' hheeded =>
        (hwithin side' nofun hheeded).cons _

theorem settled_goes (hframed : Framed s) (h : ∀ side, Tended s side) (hdone : s.doneFlag = false)
    (hnoticed : Noticed s (.go a)) (hgoes : Goes s a s') : Settled s' := by
  cases hgoes with
  | skip hs hlock =>
    rename_i depth established phase rest
    have hmem : phase ∈ held rest := by
      have hheld := (hframed.locks phase).mp hlock
      rw [hs, held_cons] at hheld
      exact hheld
    refine settled_moves h (fun _ => .refl _) fun side => heeded_cycle hs fun hnot hcomes => ?_
    exact (comes_after hcomes fun heq => hnot (heq ▸ hmem)).2
  | enter hs hlock henter => exact settled_enter h hs henter
  | release hs =>
    exact settled_moves h (fun _ => .refl _) fun side => heeded_cycle hs fun _ => comes_release
  | again hs =>
    rename_i depth established rest
    have hpop : Framed { s with stack := rest } := hframed.pop hs rfl rfl rfl
    refine settled_cycle hpop (fun side => ?_) (depth + 1)
    by_cases hfree : s.locks (.pull side) = false
    · exact .inl (.inl hfree)
    · have hmem : .pull side ∈ held rest :=
        (hpop.locks _).mp (Bool.eq_true_of_not_eq_false hfree)
      exact .inr ((h side).of_stack (.refl _)
        (heeded_above hs (fun hframe => hframe.1 hmem) (.inl rfl) (.inl rfl)))
  | leave hs hold =>
    refine settled_moves h (fun _ => .refl _) fun side =>
      heeded_above hs (fun hframe => ?_) (.inl rfl) (.inl rfl)
    exact hframe.2.elim nofun hold
  | pull hs hround =>
    unfold Noticed at hnoticed
    dsimp only at hnoticed
    rw [hs] at hnoticed
    exact settled_round hframed h hs (hnoticed hdone) hround
  | ended hs =>
    rename_i side havePending rest
    obtain ⟨hstack, -, hestablished⟩ := done_frame { s with stack := rest } side
    exact settled_moves h (done_alike { s with stack := rest } side) fun side' =>
      heeded_above hs (fun hframe => absurd hframe.2 nofun) (.inl hestablished) (.inl hstack)
  | paused hs =>
    exact settled_moves h (fun _ => .refl _) fun side =>
      heeded_above hs id (.inl rfl) (.inl rfl)
  | fill hs =>
    exact settled_moves h (fun _ => .refl _) fun side =>
      heeded_above hs id (.inl rfl) (.inr ⟨_, rfl⟩)
  | push hs =>
    obtain ⟨-, hestablished, hstack⟩ := push_frame s _ _ _ a
    exact settled_moves h (fun side => push_alike s _ side _ _ a) fun side =>
      heeded_above hs id hestablished (hstack.imp id fun ⟨_, hpc⟩ => ⟨_, hpc⟩)
  | finish hs =>
    rename_i side rest
    unfold Noticed at hnoticed
    dsimp only at hnoticed
    rw [hs] at hnoticed
    have hpop : ∀ side', Heeded s.established side' s.stack → Heeded s.established side' rest := by
      intro side' hheeded
      rw [hs] at hheeded
      exact hheeded.rest id
    exact settled_finish (s := { s with stack := rest }) (hframed.pop hs rfl rfl rfl)
      (fun side' => (h side').of_stack (.refl _) (hpop side')) (hnoticed.imp id (hpop side))

theorem settled_returns (hframed : Framed s) (h : ∀ side, Tended s side)
    (hreturns : Returns s a s') : Settled s' := by
  cases hreturns with
  | pull hs hpulled =>
    rename_i side havePending tmp cb took rest
    refine settled_pulled hs (fun side' _ => h side') (fun _ => .inr ?_) hpulled
    obtain ⟨⟨depth, established, below, rfl, hold⟩, hestablished⟩ := hframed.top hs
    have hbelow : Framed { s with stack := .cycle depth established _ :: below } :=
      hframed.pop hs rfl rfl rfl
    obtain rfl := hold tmp cb took rfl
    exact .inl ⟨(hbelow.top rfl).1, .inr ⟨rfl, hestablished⟩⟩
  | callback hs =>
    refine settled_moves h (fun _ => .refl _) fun side hheeded => ?_
    rw [hs] at hheeded
    exact hheeded
  | pulled hs hpc =>
    refine settled_moves h (fun _ => .refl _) fun side =>
      heeded_above hs (fun hframe => ?_) (.inl rfl) (.inl rfl)
    rcases hpc with rfl | rfl <;> exact absurd hframe.2 nofun
  | push hs =>
    obtain ⟨-, hestablished, hstack⟩ := pushed_frame s _ _ _ a.internallyPending _
    exact settled_moves h (fun side => pushed_alike s _ side _ _ _ _) fun side =>
      heeded_above hs id (.inl hestablished) (hstack.imp id fun ⟨_, hpc⟩ => ⟨_, hpc⟩)
  | data hs =>
    exact settled_moves h (fun _ => .refl _) fun side =>
      heeded_above hs id (.inl rfl) (.inr ⟨_, rfl⟩)
  | pushed hs =>
    exact settled_moves h (fun _ => .refl _) fun side =>
      heeded_above hs id (.inl rfl) (.inl rfl)

end

theorem settled_step {s s' : Pair} {a : Action} (hframed : Framed s) (h : Settled s)
    (hnoticed : Noticed s a) (hstep : step s a = some s') : Settled s' := by
  by_cases hnow : s.doneFlag = true
  · exact .inl (doneFlag_step hnow hstep)
  have hdone : s.doneFlag = false := Bool.eq_false_iff.mpr hnow
  replace h := h.resolve_left hnow
  have hpause : ∀ (side : Side) (paused : Bool) (side' : Side), Alike (s.stream side')
      ((s.update side fun x => { x with paused := paused }).stream side') :=
    fun side paused side' => update_alike ⟨rfl, rfl, rfl, rfl, rfl, rfl, rfl, id⟩ side'
  cases stepped_of_step hstep with
  | write side data cb => exact settled_write hframed h hnoticed data cb
  | finish side hwritable => exact settled_finish hframed h (hnoticed hwritable)
  | endWith side data hwritable =>
    have hcall : Framed { s with stack := .end side :: s.stack } :=
      hframed.call rfl rfl rfl trivial trivial rfl
    exact settled_write hcall
      (fun side' => (h side').of_stack (.refl _) fun hheeded => hheeded.cons _)
      ((hnoticed hwritable).imp id fun hheeded => hheeded.cons _) data none
  | endLate => exact .inr h
  | pause side => exact settled_moves h (hpause side true) fun _ => id
  | resume side =>
    exact settled_cycle (hframed.update side _)
      (fun side' => .inr ((h side').of_stack (hpause side false side') id)) 0
  | destroy => exact .inl (doneFlag_destroy s)
  | cycle => exact settled_cycle hframed (fun side => .inr (h side)) 0
  | returns hreturns => exact settled_returns hframed h hreturns
  | goes hgoes => exact settled_goes hframed h hdone hnoticed hgoes

/-- A call that looks at what is pending is a `cycle`, or a `_pull` of one. -/
theorem Heeded.cycle {established : Bool} {side : Side} {stack : List Frame}
    (hstacked : Stacked stack) (h : Heeded established side stack) :
    ∃ depth established' place, Frame.cycle depth established' place ∈ stack := by
  induction stack with
  | nil => exact h.elim
  | cons frame rest ih =>
    rcases h with hframe | hrest
    · cases frame with
      | cycle depth established' place => exact ⟨depth, established', place, List.mem_cons_self⟩
      | pull side' havePending pc =>
        obtain ⟨depth, established', below, rfl, -⟩ := hstacked.1
        exact ⟨depth, established', _, List.mem_cons_of_mem _ List.mem_cons_self⟩
      | push side' pc => exact hframe.elim
      | «end» side' => exact hframe.elim
    · obtain ⟨depth, established', place, hmem⟩ := ih hstacked.2 hrest
      exact ⟨depth, established', place, List.mem_cons_of_mem _ hmem⟩

/-- When the outermost `cycle` has returned and the pair is not done, a stream has nothing pending,
or the binding refused the first of it after the last write. -/
theorem settled (isServer rejectUnauthorized : Bool) {s : Pair}
    (h : Reach step Noticed (.new isServer rejectUnauthorized) s)
    (hreturned : ∀ depth established place, .cycle depth established place ∉ s.stack)
    (hdone : s.doneFlag = false) (side : Side) :
    (s.stream side).pending = [] ∨ (s.stream side).refused = true := by
  have hinv : Framed s ∧ Settled s := by
    refine h.invariant (P := fun s => Framed s ∧ Settled s)
      ⟨framed_new _ _, .inr fun _ => .inl rfl⟩ fun s a s' hs hnoticed hstep => ?_
    exact ⟨framed_step hs.1 hstep, settled_step hs.1 hs.2 hnoticed hstep⟩
  rcases hinv.2 with hnow | htended
  · exact absurd (hdone.symm.trans hnow) nofun
  · rcases htended side with hnone | hrefused | hheeded
    · exact .inl hnone
    · exact .inr hrefused
    · obtain ⟨depth, established, place, hmem⟩ := hheeded.cycle hinv.1.stacked
      exact absurd hmem (hreturned depth established place)

def taking : Answer := ⟨true, -1, none, false, false⟩

def refusing : Answer := ⟨false, -1, none, false, false⟩

/-- The callback of a write writes again. The binding has taken the first Buffer and refuses the
second one, which the `_pull` of the outer `cycle` finds. -/
def rewriting : List Action :=
  .write .cleartext [1] (some 0) :: List.replicate 5 (.go taking) ++
    .write .cleartext [2] none :: List.replicate 13 (.go refusing) ++
    .ret refusing :: List.replicate 11 (.go refusing)

theorem settled_refusing : ∃ s, run step (.new false false) rewriting = some s ∧
    (s.stream .cleartext).pending = [.data [2]] ∧
    ((s.stream .cleartext).pending = [] ∨ (s.stream .cleartext).refused = true) := by
  obtain ⟨s, hs, hpending, hstack, hdone⟩ : ∃ s, run step (.new false false) rewriting = some s ∧
      (s.stream .cleartext).pending = [.data [2]] ∧ s.stack = [] ∧ s.doneFlag = false :=
    ⟨_, rfl, rfl, rfl, rfl⟩
  have hreach : Reach step Noticed (.new false false) s := by
    refine reach_of_along hs (along_cons rfl (.inl rfl) ?_)
    refine along_cons rfl trivial (along_cons rfl (fun _ _ hitem => absurd hitem nofun) ?_)
    refine along_cons rfl trivial (along_cons rfl trivial (along_cons rfl ?_ ?_))
    · rintro - item ⟨rfl⟩ hstops
      exact absurd hstops (by decide)
    -- the callback: its write is noticed by the `_pull` that called it
    refine along_cons rfl (.inr (.inl ⟨rfl, rfl⟩)) ?_
    refine along_cons rfl trivial (along_cons rfl (fun _ _ hitem => absurd hitem nofun) ?_)
    refine along_cons rfl trivial (along_cons rfl trivial (along_cons rfl trivial ?_))
    refine along_cons rfl trivial (along_cons rfl trivial (along_cons rfl trivial ?_))
    refine along_cons rfl trivial (along_cons rfl trivial (along_cons rfl trivial ?_))
    refine along_cons rfl trivial (along_cons rfl trivial (along_cons rfl trivial ?_))
    refine along_cons rfl ?_ ?_
    · rintro - item ⟨rfl⟩ hstops
      exact absurd hstops (by decide)
    refine along_cons rfl trivial (along_cons rfl trivial (along_cons rfl trivial ?_))
    refine along_cons rfl trivial (along_cons rfl trivial (along_cons rfl trivial ?_))
    refine along_cons rfl trivial (along_cons rfl trivial (along_cons rfl trivial ?_))
    exact along_cons rfl trivial trivial
  have hreturned : ∀ depth established place, .cycle depth established place ∉ s.stack := by
    rw [hstack]
    exact fun _ _ _ => List.not_mem_nil
  exact ⟨s, hs, hpending, settled false false hreach hreturned hdone .cleartext⟩

/-- What a listener for `'drain'` writes is left. -/
theorem not_settled : ¬ ∀ s, Reach step (fun _ _ => True) (.new false false) s →
    (∀ depth established place, .cycle depth established place ∉ s.stack) → s.doneFlag = false →
    ∀ side, (s.stream side).pending = [] ∨ (s.stream side).refused = true := by
  intro h
  obtain ⟨s, hs, hpending, hrefused, hstack, hdone⟩ : ∃ s, run step (.new false false)
      (.write .encrypted [1] none :: List.replicate 3 (.go idle) ++
        .write .encrypted [2] none :: List.replicate 13 (.go idle) ++
        .ret idle :: List.replicate 13 (.go idle)) = some s ∧
      (s.stream .encrypted).pending = [.data [2]] ∧ (s.stream .encrypted).refused = false ∧
      s.stack = [] ∧ s.doneFlag = false := ⟨_, rfl, rfl, rfl, rfl, rfl⟩
  have hreturned : ∀ depth established place, .cycle depth established place ∉ s.stack := by
    rw [hstack]
    exact fun _ _ _ => List.not_mem_nil
  rcases h s (reach_of_run hs fun _ _ => trivial) hreturned hdone .encrypted with hnone | hold
  · exact absurd (hpending.symm.trans hnone) nofun
  · exact absurd (hrefused.symm.trans hold) nofun

end NodeJS.Tls
