import NodeJS.Tls.Stack

/-! The accounts of a stream: what was written to it is accepted by the binding in that order, and
the rest of it is in `_pending`. -/
namespace NodeJS.Tls
open Lib

def Item.bytes : Item → Option Bytes
  | .data [] => none
  | .data (b :: bytes) => some (b :: bytes)
  | .endOfFile => none

def Item.size : Item → ℕ
  | .data b => b.length
  | .endOfFile => 0

/-- The total length of the Buffers in `_pending`. -/
def size (items : List Item) : ℕ := (items.map Item.size).sum

/-- The Buffers in `_pending` that are not empty. -/
def buffers (items : List Item) : List Bytes := items.filterMap Item.bytes

def CryptoStream.offered (x : CryptoStream) : List Bytes := x.written.filter fun b => !b.isEmpty

/-- The Buffer that a `_pull` has taken from `_pending` and not yet settled, and whether the binding
took it. -/
def Frame.flight (side : Side) : Frame → Option (Bytes × Bool)
  | .pull side' _ (.secure tmp _ took) => if side' = side then some (tmp, took) else none
  | _ => none

def inFlight (side : Side) (stack : List Frame) : Option (Bytes × Bool) :=
  stack.findSome? (Frame.flight side)

def putBack : Option (Bytes × Bool) → List Bytes
  | some (tmp, false) => [tmp]
  | _ => []

def flightSize : Option (Bytes × Bool) → ℕ
  | some (tmp, _) => tmp.length
  | none => 0

/-- Nothing but `END_OF_FILE` stands behind one. -/
def Tidy : List Item → Prop
  | [] => True
  | .data _ :: items => Tidy items
  | .endOfFile :: items => ∀ item ∈ items, item = .endOfFile

structure Account (x : CryptoStream) (flight : Option (Bytes × Bool)) : Prop where
  callbacks : x.pendingCallbacks.length = x.pending.length
  bytes : x.pendingBytes = size x.pending + flightSize flight
  order : x.accepted ++ putBack flight ++ buffers x.pending = x.offered
  tidy : Tidy x.pending
  writable : x.writable = true → .endOfFile ∉ x.pending ∧ x.ended = false
  ended : x.ended = true → putBack flight = [] ∧ buffers x.pending = []
  solid : ∀ p ∈ flight, p.1 ≠ []

@[simp] theorem size_cons (item : Item) (items : List Item) :
    size (item :: items) = item.size + size items := by
  simp [size]

@[simp] theorem size_append (items items' : List Item) :
    size (items ++ items') = size items + size items' := by
  simp [size]

theorem size_endOfFile (items : List Item) : size (.endOfFile :: items) = size items :=
  (size_cons ..).trans (Nat.zero_add _)

theorem buffers_append (items items' : List Item) :
    buffers (items ++ items') = buffers items ++ buffers items' := List.filterMap_append

theorem buffers_data {tmp : Bytes} (htmp : tmp ≠ []) (items : List Item) :
    buffers (.data tmp :: items) = tmp :: buffers items := by
  cases tmp with
  | nil => exact absurd rfl htmp
  | cons b bytes => rfl

theorem buffers_endOfFile {items : List Item} (h : ∀ item ∈ items, item = .endOfFile) :
    buffers items = [] := by
  refine List.filterMap_eq_nil_iff.mpr fun item hitem => ?_
  rw [h item hitem]
  rfl

theorem Tidy.snoc {items : List Item} (h : Tidy items) : Tidy (items ++ [.endOfFile]) := by
  induction items with
  | nil => exact fun item hitem => absurd hitem List.not_mem_nil
  | cons item items ih =>
    cases item with
    | data b => exact ih h
    | endOfFile =>
      exact List.forall_mem_append.mpr ⟨h, List.forall_mem_singleton.mpr rfl⟩

theorem tidy_append {items : List Item} (h : .endOfFile ∉ items) (item : Item) :
    Tidy (items ++ [item]) := by
  induction items with
  | nil => cases item <;> first | trivial | exact fun item hitem => absurd hitem List.not_mem_nil
  | cons item' items ih =>
    obtain ⟨hne, hrest⟩ := not_or.mp (mt List.mem_cons.mpr h)
    cases item' with
    | data b => exact ih hrest
    | endOfFile => exact absurd rfl hne

theorem Tidy.tail {item : Item} {items : List Item} (h : Tidy (item :: items)) : Tidy items := by
  cases item with
  | data b => exact h
  | endOfFile =>
    cases items with
    | nil => trivial
    | cons item items =>
      obtain ⟨rfl, hrest⟩ := List.forall_mem_cons.mp h
      exact hrest

@[simp] theorem size_nil : size [] = 0 := rfl

/-! ### What an operation does to the account -/

section
variable {x : CryptoStream} {flight : Option (Bytes × Bool)} {tmp : Bytes} {pending : List Item}

theorem offered_write (x : CryptoStream) (data : Bytes) (cb : Option ℕ) :
    (x.write data cb).offered = x.offered ++ buffers [.data data] := by
  unfold CryptoStream.offered CryptoStream.write
  dsimp only
  rw [List.filter_append]
  cases data <;> rfl

theorem Account.write (h : Account x flight) (hwritable : x.writable = true) (data : Bytes)
    (cb : Option ℕ) : Account (x.write data cb) flight := by
  obtain ⟨hopen, hended⟩ := h.writable hwritable
  refine ⟨?_, ?_, ?_, tidy_append hopen _, fun _ => ⟨fun hmem => ?_, hended⟩, fun hend => ?_,
    h.solid⟩
  · unfold CryptoStream.write CryptoStream.queue
    dsimp only
    rw [List.length_append, List.length_append, h.callbacks]
    rfl
  · have hsize : size (x.pending ++ [.data data]) = size x.pending + data.length := by
      rw [size_append, size_cons, size_nil]
      rfl
    unfold CryptoStream.write CryptoStream.queue
    dsimp only
    rw [h.bytes, hsize]
    omega
  · rw [offered_write, ← h.order]
    unfold CryptoStream.write CryptoStream.queue
    dsimp only
    rw [buffers_append, List.append_assoc _ (buffers x.pending)]
  · rcases List.mem_append.mp hmem with hmem | hmem
    · exact hopen hmem
    · exact absurd (List.mem_singleton.mp hmem) nofun
  · exact absurd (hended.symm.trans hend) nofun

theorem Account.finish (h : Account x flight) : Account x.finish flight := by
  have hbuffers : buffers (x.pending ++ [.endOfFile]) = buffers x.pending := by
    rw [buffers_append]
    exact List.append_nil _
  have hsize : size (x.pending ++ [.endOfFile]) = size x.pending := by
    rw [size_append]
    rfl
  refine ⟨?_, ?_, ?_, h.tidy.snoc, nofun, fun hend => ?_, h.solid⟩
  · unfold CryptoStream.finish CryptoStream.queue
    dsimp only
    rw [List.length_append, List.length_append, h.callbacks]
    rfl
  · exact h.bytes.trans (by rw [← hsize]; rfl)
  · exact (congrArg (_ ++ ·) hbuffers).trans h.order
  · obtain ⟨hback, hnone⟩ := h.ended hend
    exact ⟨hback, hbuffers.trans hnone⟩

theorem Account.callbacks_shift (h : Account x flight) :
    x.shift.pendingCallbacks.length = x.shift.pending.length := by
  unfold CryptoStream.shift
  dsimp only
  rw [List.length_tail, List.length_tail, h.callbacks]

theorem pending_shift {item : Item} (hpending : x.pending = item :: pending) :
    x.shift.pending = pending := by
  unfold CryptoStream.shift
  dsimp only
  rw [hpending]
  rfl

/-- `END_OF_FILE` is processed. -/
theorem Account.endOfFile (h : Account x none) (hpending : x.pending = .endOfFile :: pending) :
    Account { x.shift with ended := true } none := by
  have hshift := pending_shift hpending
  have htidy := h.tidy
  have hbytes := h.bytes
  have horder := h.order
  rw [hpending] at htidy hbytes horder
  have hnone : buffers x.shift.pending = [] := by
    rw [hshift]
    exact buffers_endOfFile htidy
  refine ⟨h.callbacks_shift, ?_, ?_, ?_, fun hwritable => ?_, fun _ => ⟨rfl, hnone⟩, nofun⟩
  · dsimp only
    rw [hshift]
    rw [size_endOfFile] at hbytes
    exact hbytes
  · dsimp only
    rw [hshift]
    exact horder
  · dsimp only
    rw [hshift]
    exact htidy.tail
  · have hmem := (h.writable hwritable).1
    rw [hpending] at hmem
    exact absurd List.mem_cons_self hmem

/-- A Buffer is taken from `_pending`. -/
theorem Account.shift (h : Account x none) (hpending : x.pending = .data tmp :: pending) :
    Tidy x.shift.pending ∧ x.pendingBytes = size x.shift.pending + tmp.length ∧
      (x.writable = true → .endOfFile ∉ x.shift.pending ∧ x.ended = false) := by
  have htidy := h.tidy
  have hbytes := h.bytes
  have hwritable := h.writable
  rw [pending_shift hpending]
  rw [hpending] at htidy hbytes hwritable
  refine ⟨htidy, ?_, fun hopen => ?_⟩
  · rw [hbytes, size_cons]
    unfold flightSize Item.size
    dsimp only
    omega
  · obtain ⟨hnot, hended⟩ := hwritable hopen
    exact ⟨fun hmem => hnot (List.mem_cons_of_mem _ hmem), hended⟩

theorem Account.empty (h : Account x none) (hpending : x.pending = .data [] :: pending) :
    Account x.shift none := by
  obtain ⟨htidy, hbytes, hwritable⟩ := h.shift hpending
  have horder := h.order
  have hended := h.ended
  rw [hpending] at horder hended
  rw [← pending_shift hpending] at horder hended
  exact ⟨h.callbacks_shift, hbytes, horder, htidy, hwritable, hended, nofun⟩

theorem Account.answered (h : Account x none) (hpending : x.pending = .data tmp :: pending)
    (htmp : tmp ≠ []) (took : Bool) :
    Account (x.shift.answered tmp took) (some (tmp, took)) := by
  obtain ⟨htidy, hbytes, hwritable⟩ := h.shift hpending
  have horder := h.order
  have hended := h.ended
  rw [hpending, buffers_data htmp] at horder
  rw [hpending] at hended
  have hnever : x.ended = true → False := fun hend => by
    have hnone := (hended hend).2
    rw [buffers_data htmp] at hnone
    exact absurd hnone (List.cons_ne_nil _ _)
  rw [← pending_shift hpending] at horder
  have hsolid : ∀ p ∈ some (tmp, took), p.1 ≠ [] := fun p hp => by
    obtain rfl := Option.some.inj hp
    exact htmp
  cases took with
  | true =>
    refine ⟨h.callbacks_shift, hbytes, ?_, htidy, hwritable, fun hend => (hnever hend).elim,
      hsolid⟩
    refine Eq.trans ?_ horder
    unfold CryptoStream.answered putBack
    rw [if_pos rfl]
    dsimp only
    rw [List.append_nil, List.append_nil, List.append_assoc]
    rfl
  | false =>
    refine ⟨h.callbacks_shift, hbytes, ?_, htidy, hwritable, fun hend => (hnever hend).elim,
      hsolid⟩
    refine Eq.trans ?_ horder
    unfold CryptoStream.answered putBack
    rw [if_neg Bool.false_ne_true]
    dsimp only
    rw [List.append_nil, List.append_assoc]
    rfl

theorem Account.settle (h : Account x (some (tmp, true))) : Account (x.settle tmp) none := by
  refine ⟨h.callbacks, ?_, h.order, h.tidy, h.writable, h.ended, nofun⟩
  have hbytes := h.bytes
  unfold CryptoStream.settle
  dsimp only
  rw [hbytes]
  unfold flightSize
  dsimp only
  omega

theorem Account.unshift (h : Account x (some (tmp, false))) (cb : Option ℕ) :
    Account (x.unshift tmp cb) none := by
  have htmp : tmp ≠ [] := h.solid _ rfl
  have hback : x.ended = true → False := fun hend => absurd (h.ended hend).1 nofun
  refine ⟨congrArg (· + 1) h.callbacks, ?_, ?_, h.tidy, fun hwritable => ⟨fun hmem => ?_, ?_⟩,
    fun hend => (hback hend).elim, nofun⟩
  · have hbytes := h.bytes
    unfold CryptoStream.unshift
    dsimp only
    rw [hbytes, size_cons]
    unfold flightSize Item.size
    dsimp only
    omega
  · have horder := h.order
    unfold CryptoStream.unshift
    dsimp only
    rw [buffers_data htmp]
    unfold putBack at horder ⊢
    dsimp only at horder ⊢
    rw [List.append_nil]
    rw [List.append_assoc] at horder
    exact horder
  · rcases List.mem_cons.mp hmem with hmem | hmem
    · exact absurd hmem nofun
    · exact (h.writable hwritable).1 hmem
  · exact (h.writable hwritable).2

end

/-! ### The run -/

/-- The streams differ in their flags alone, and none is writable again. -/
structure Alike (x x' : CryptoStream) : Prop where
  pending : x'.pending = x.pending
  pendingCallbacks : x'.pendingCallbacks = x.pendingCallbacks
  pendingBytes : x'.pendingBytes = x.pendingBytes
  written : x'.written = x.written
  accepted : x'.accepted = x.accepted
  ended : x'.ended = x.ended
  refused : x'.refused = x.refused
  writable : x'.writable = true → x.writable = true

theorem Alike.refl (x : CryptoStream) : Alike x x := ⟨rfl, rfl, rfl, rfl, rfl, rfl, rfl, id⟩

theorem Account.alike {x x' : CryptoStream} {flight : Option (Bytes × Bool)} (h : Account x flight)
    (halike : Alike x x') : Account x' flight := by
  refine ⟨?_, ?_, ?_, ?_, fun hwritable => ?_, fun hended => ?_, h.solid⟩
  · rw [halike.pending, halike.pendingCallbacks, h.callbacks]
  · rw [halike.pendingBytes, halike.pending, h.bytes]
  · unfold CryptoStream.offered
    rw [halike.accepted, halike.pending, halike.written]
    exact h.order
  · rw [halike.pending]
    exact h.tidy
  · rw [halike.pending, halike.ended]
    exact h.writable (halike.writable hwritable)
  · rw [halike.pending]
    exact h.ended (halike.ended ▸ hended)

theorem destroy_alike (s : Pair) (side : Side) :
    Alike (s.stream side) ((destroy s).stream side) := by
  unfold destroy
  split_ifs
  · exact .refl _
  · exact ⟨rfl, rfl, rfl, rfl, rfl, rfl, rfl, nofun⟩

theorem Alike.trans {x x' x'' : CryptoStream} (h : Alike x x') (h' : Alike x' x'') :
    Alike x x'' :=
  ⟨h'.pending.trans h.pending, h'.pendingCallbacks.trans h.pendingCallbacks,
    h'.pendingBytes.trans h.pendingBytes, h'.written.trans h.written, h'.accepted.trans h.accepted,
    h'.ended.trans h.ended, h'.refused.trans h.refused, fun hopen => h.writable (h'.writable hopen)⟩

theorem update_alike {s : Pair} {side : Side} {f : CryptoStream → CryptoStream}
    (hf : Alike (s.stream side) (f (s.stream side))) (side' : Side) :
    Alike (s.stream side') ((s.update side f).stream side') := by
  by_cases heq : side' = side
  · rw [heq, stream_update]
    exact hf
  · rw [stream_update_of_ne s heq]
    exact .refl _

theorem done_alike (s : Pair) (side side' : Side) :
    Alike (s.stream side') ((done s side).stream side') := by
  have hupdate : Alike (s.stream side')
      ((s.update side fun x => { x with doneFlag := true }).stream side') :=
    update_alike ⟨rfl, rfl, rfl, rfl, rfl, rfl, rfl, id⟩ side'
  unfold done
  dsimp only
  split_ifs
  · exact hupdate.trans (destroy_alike _ side')
  · exact hupdate

theorem error_alike (s : Pair) (e : Err) (side : Side) :
    Alike (s.stream side) ((error s e).2.stream side) := by
  unfold error
  split_ifs
  · exact destroy_alike s side
  · exact destroy_alike s side
  · exact .refl _

theorem pushed_alike (s : Pair) (side side' : Side) (bytesRead : ℕ) (chunkBytes : ℤ)
    (internallyPending : Bool) (rest : List Frame) : Alike (s.stream side')
      ((pushed s side bytesRead chunkBytes internallyPending rest).stream side') := by
  unfold pushed
  dsimp only
  split_ifs
  · exact .refl _
  · exact done_alike { s with stack := rest } side side'
  · exact .refl _
  · exact .refl _

theorem push_alike (s : Pair) (side side' : Side) (bytesRead : ℕ) (rest : List Frame)
    (a : Answer) : Alike (s.stream side') ((push s side bytesRead rest a).stream side') := by
  unfold push
  dsimp only
  cases herror : (if s.doneFlag then none else a.error) with
  | some e => exact error_alike s e side'
  | none =>
    dsimp only
    by_cases hsecure : finishesInit s a.initFinished = true
    · rw [if_pos hsecure]
      exact .refl _
    · rw [if_neg hsecure]
      exact pushed_alike s side side' bytesRead _ _ rest

theorem cycle_stream (s : Pair) (depth : ℕ) : (cycle s depth).stream = s.stream := by
  unfold cycle
  split_ifs <;> rfl

def Balanced (s : Pair) : Prop := ∀ side, Account (s.stream side) (inFlight side s.stack)

theorem inFlight_cons {side : Side} {frame : Frame} (h : frame.flight side = none)
    (rest : List Frame) : inFlight side (frame :: rest) = inFlight side rest := by
  unfold inFlight
  rw [List.findSome?_cons, h]

theorem flight_of_ne {side side' : Side} (h : side' ≠ side) (havePending : Bool) (pc : Pull) :
    (Frame.pull side havePending pc).flight side' = none := by
  cases pc with
  | secure tmp cb took => exact if_neg fun heq => h heq.symm
  | _ => rfl

theorem inFlight_secure (side : Side) (havePending : Bool) (tmp : Bytes) (cb : Option ℕ)
    (took : Bool) (rest : List Frame) :
    inFlight side (.pull side havePending (.secure tmp cb took) :: rest) = some (tmp, took) := by
  unfold inFlight
  rw [List.findSome?_cons, Frame.flight, if_pos rfl]

/-- Where the lock is free nothing is in flight. -/
theorem inFlight_none {side : Side} {stack : List Frame} (h : Stacked stack)
    (hfree : .pull side ∉ held stack) : inFlight side stack = none := by
  induction stack with
  | nil => rfl
  | cons frame rest ih =>
    rw [held_cons, List.mem_append, not_or] at hfree
    have hrest := ih h.2 hfree.2
    cases frame with
    | pull side' havePending pc =>
      obtain ⟨depth, established, below, hbelow, -⟩ := h.1
      have hne : side ≠ side' := fun heq => by
        refine hfree.2 ?_
        rw [hbelow, held_cons, heq]
        exact List.mem_cons_self
      rw [inFlight_cons (flight_of_ne hne havePending pc), hrest]
    | _ => rw [inFlight_cons rfl, hrest]

/-- A stream has one `_pull` at a time. -/
theorem Framed.inFlight_rest {s : Pair} (h : Framed s) {side : Side} {havePending : Bool}
    {pc : Pull} {rest : List Frame} (hs : s.stack = .pull side havePending pc :: rest) :
    inFlight side rest = none := by
  have hstacked := h.stacked
  rw [hs] at hstacked
  obtain ⟨⟨depth, established, below, rfl, -⟩, hcycle, hbelow⟩ := hstacked
  rw [inFlight_cons rfl]
  exact inFlight_none hbelow hcycle

theorem Balanced.alike {s s' : Pair} (h : Balanced s)
    (halike : ∀ side, Alike (s.stream side) (s'.stream side))
    (hflight : ∀ side, inFlight side s'.stack = inFlight side s.stack) : Balanced s' := by
  intro side
  rw [hflight side]
  exact (h side).alike (halike side)

theorem Balanced.moves {s s' : Pair} (h : Balanced s) (hstream : s'.stream = s.stream)
    (hflight : ∀ side, inFlight side s'.stack = inFlight side s.stack) : Balanced s' :=
  h.alike (fun _ => hstream ▸ .refl _) hflight

theorem Balanced.cycle {s : Pair} (h : Balanced s) (depth : ℕ) : Balanced (cycle s depth) := by
  refine h.moves (cycle_stream s depth) fun side => ?_
  rcases cycle_cases s depth with ⟨-, hsame⟩ | ⟨writeCalled, hcycle⟩
  · rw [hsame]
  · rw [hcycle]
    exact inFlight_cons rfl _

theorem Balanced.update {s : Pair} (h : Balanced s) {side : Side}
    {f : CryptoStream → CryptoStream}
    (hf : Account (f (s.stream side)) (inFlight side s.stack)) : Balanced (s.update side f) := by
  intro side'
  by_cases heq : side' = side
  · rw [heq, stream_update]
    exact hf
  · rw [stream_update_of_ne s heq]
    exact h side'

theorem Balanced.write {s : Pair} (h : Balanced s) {side : Side}
    (hwritable : (s.stream side).writable = true) (data : Bytes) (cb : Option ℕ) :
    Balanced (write s side data cb) := by
  have hupdate : Balanced (s.update side fun x => x.write data cb) :=
    h.update ((h side).write hwritable data cb)
  exact Balanced.cycle (s := { s.update side fun x => x.write data cb with writeCalled := true })
    (hupdate.moves rfl fun _ => rfl) 0

theorem Balanced.finish {s : Pair} (h : Balanced s) (side : Side) : Balanced (finish s side) :=
  (h.update (h side).finish).cycle 0

/-- The Buffer that was in flight is settled or put back. -/
theorem balanced_pulled {s s' : Pair} {side : Side} {havePending : Bool} {tmp : Bytes}
    {cb : Option ℕ} {took : Bool} {rest : List Frame}
    (hrest : inFlight side rest = none)
    (hside : Account (s.stream side) (some (tmp, took)))
    (hother : ∀ side', side' ≠ side → Account (s.stream side') (inFlight side' rest))
    (hpulled : pulled s side havePending tmp cb took rest = some s') : Balanced s' := by
  intro side'
  rcases pulled_cases hpulled with ⟨rfl, pc, hpc, rfl⟩ | ⟨rfl, rfl⟩
  · have hflight : (Frame.pull side havePending pc).flight side' = none := by
      rcases hpc with rfl | rfl <;> rfl
    dsimp only
    rw [inFlight_cons hflight]
    by_cases heq : side' = side
    · rw [heq, stream_update, hrest]
      exact hside.settle
    · rw [stream_update_of_ne s heq]
      exact hother side' heq
  · dsimp only
    by_cases heq : side' = side
    · rw [heq, stream_update, hrest]
      exact hside.unshift cb
    · rw [stream_update_of_ne s heq]
      exact hother side' heq

section
variable {s s' : Pair} {side : Side} {havePending : Bool} {rest : List Frame} {a : Answer}

theorem balanced_round (h : Balanced s) (hframed : Framed s)
    (hs : s.stack = .pull side havePending .loop :: rest) (hcalm : a.error = none)
    (hround : Round s side havePending rest a s') : Balanced s' := by
  have hrest := hframed.inFlight_rest hs
  have hloop : ∀ side', inFlight side' s.stack = inFlight side' rest := fun side' => by
    rw [hs]
    exact inFlight_cons rfl rest
  have hside : Account (s.stream side) none := by
    have haccount := h side
    rw [hloop side, hrest] at haccount
    exact haccount
  -- A Buffer was taken out, and the binding has answered for it.
  have hanswered : ∀ {tmp : Bytes} {pending : List Item},
      (s.stream side).pending = .data tmp :: pending → tmp ≠ [] →
      Account (((s.update side CryptoStream.shift).update side
        fun x => x.answered tmp a.took).stream side) (some (tmp, a.took)) ∧
      ∀ side', side' ≠ side → Account (((s.update side CryptoStream.shift).update side
        fun x => x.answered tmp a.took).stream side') (inFlight side' rest) := by
    intro tmp pending hpending htmp
    refine ⟨?_, fun side' hne => ?_⟩
    · rw [stream_update, stream_update]
      exact hside.answered hpending htmp a.took
    · rw [stream_update_of_ne _ hne, stream_update_of_ne _ hne, ← hloop side']
      exact h side'
  cases hround with
  | drained => exact h.moves rfl fun side' => (inFlight_cons rfl rest).trans (hloop side').symm
  | left => exact h.moves rfl fun side' => (hloop side').symm
  | endOfFile hpending =>
    refine Balanced.cycle ?_ 0
    have hended : Balanced ((s.update side CryptoStream.shift).update side
        fun x => { x with ended := true }) := by
      intro side'
      by_cases heq : side' = side
      · rw [heq, stream_update, stream_update]
        exact (hloop side).trans hrest ▸ hside.endOfFile hpending
      · rw [stream_update_of_ne _ heq, stream_update_of_ne _ heq]
        exact h side'
    have hpush : ∀ x : CryptoStream, Alike x { x with destroyAfterPush := true } :=
      fun _ => ⟨rfl, rfl, rfl, rfl, rfl, rfl, rfl, id⟩
    have hmarked : Balanced (((s.update side CryptoStream.shift).update side
        fun x => { x with ended := true }).update side.other
          fun x => { x with destroyAfterPush := true }) :=
      hended.alike (fun side' => update_alike (hpush _) side') fun _ => rfl
    exact hmarked.moves rfl fun side' => (inFlight_cons rfl rest).trans (hloop side').symm
  | empty hpending =>
    have hempty : Balanced (s.update side CryptoStream.shift) := by
      refine h.update ?_
      rw [hloop side, hrest]
      exact hside.empty hpending
    exact hempty.moves rfl fun side' => (inFlight_cons rfl rest).trans (hloop side').symm
  | error hpending htmp herror => exact absurd (hcalm.symm.trans herror) nofun
  | secure hpending htmp =>
    obtain ⟨haccount, hother⟩ := hanswered hpending htmp
    intro side'
    dsimp only
    by_cases heq : side' = side
    · rw [heq, inFlight_secure]
      exact haccount
    · rw [inFlight_cons (flight_of_ne heq _ _)]
      exact hother side' heq
  | answered hpending htmp hpulled =>
    obtain ⟨haccount, hother⟩ := hanswered hpending htmp
    exact balanced_pulled hrest haccount hother hpulled

theorem balanced_enter {phase : Phase} {stack : List Frame} (h : Balanced s)
    (hstack : ∀ side, inFlight side stack = inFlight side s.stack)
    (henter : enter s phase stack = some s') : Balanced s' := by
  cases phase with
  | pull side =>
    unfold enter at henter
    dsimp only at henter
    split_ifs at henter
    obtain rfl := Option.some.inj henter
    exact h.moves rfl fun side' => (inFlight_cons rfl stack).trans (hstack side')
  | push side =>
    unfold enter at henter
    dsimp only at henter
    split_ifs at henter
    · obtain rfl := Option.some.inj henter
      exact h.moves rfl hstack
    · obtain rfl := Option.some.inj henter
      exact h.moves rfl fun side' => (inFlight_cons rfl stack).trans (hstack side')

/-- The stack changes above `rest`, where nothing is in flight. -/
theorem inFlight_above {frame : Frame} {stack : List Frame} (hs : s.stack = frame :: rest)
    (hframe : ∀ side, frame.flight side = none)
    (hstack : stack = rest ∨ ∃ frame', (∀ side, frame'.flight side = none) ∧
      stack = frame' :: rest) (side : Side) : inFlight side stack = inFlight side s.stack := by
  rw [hs, inFlight_cons (hframe side)]
  rcases hstack with rfl | ⟨frame', hframe', rfl⟩
  · rfl
  · exact inFlight_cons (hframe' side) rest

theorem balanced_goes (h : Balanced s) (hframed : Framed s) (hcalm : ∀ side havePending rest,
      s.stack = .pull side havePending .loop :: rest → a.error = none)
    (hgoes : Goes s a s') : Balanced s' := by
  cases hgoes with
  | skip hs =>
    exact h.moves rfl (inFlight_above hs (fun _ => rfl) (.inr ⟨_, fun _ => rfl, rfl⟩))
  | enter hs hlock henter =>
    rename_i depth established phase rest
    have hlocked : Balanced { s with locks := Function.update s.locks phase true } :=
      h.moves rfl fun _ => rfl
    exact balanced_enter hlocked
      (inFlight_above hs (fun _ => rfl) (.inr ⟨_, fun _ => rfl, rfl⟩)) henter
  | release hs =>
    exact h.moves rfl (inFlight_above hs (fun _ => rfl) (.inr ⟨_, fun _ => rfl, rfl⟩))
  | again hs =>
    rename_i depth established rest
    have hpop : Balanced { s with stack := rest } :=
      h.moves rfl (inFlight_above hs (fun _ => rfl) (.inl rfl))
    exact hpop.cycle (depth + 1)
  | leave hs => exact h.moves rfl (inFlight_above hs (fun _ => rfl) (.inl rfl))
  | pull hs hround => exact balanced_round h hframed hs (hcalm _ _ _ hs) hround
  | ended hs =>
    rename_i side havePending rest
    refine h.alike (done_alike { s with stack := rest } side) fun side' => ?_
    rw [(done_frame _ _).1]
    exact inFlight_above hs (fun _ => rfl) (.inl rfl) side'
  | paused hs => exact h.moves rfl (inFlight_above hs (fun _ => rfl) (.inl rfl))
  | fill hs =>
    exact h.moves rfl (inFlight_above hs (fun _ => rfl) (.inr ⟨_, fun _ => rfl, rfl⟩))
  | push hs =>
    obtain ⟨-, -, hstack⟩ := push_frame s _ _ _ a
    refine h.alike (fun side' => push_alike s _ side' _ _ a)
      (inFlight_above hs (fun _ => rfl) (hstack.imp id ?_))
    exact fun ⟨pc, hpc⟩ => ⟨_, fun _ => rfl, hpc⟩
  | finish hs =>
    rename_i side rest
    have hpop : Balanced { s with stack := rest } :=
      h.moves rfl (inFlight_above hs (fun _ => rfl) (.inl rfl))
    exact hpop.finish side

theorem balanced_returns (h : Balanced s) (hframed : Framed s) (hreturns : Returns s a s') :
    Balanced s' := by
  cases hreturns with
  | pull hs hpulled =>
    rename_i side havePending tmp cb took rest
    have hside := h side
    rw [hs, inFlight_secure] at hside
    refine balanced_pulled (hframed.inFlight_rest hs) hside (fun side' hne => ?_) hpulled
    have hother := h side'
    rw [hs, inFlight_cons (flight_of_ne hne _ _)] at hother
    exact hother
  | callback hs =>
    exact h.moves rfl (inFlight_above hs (fun _ => rfl) (.inr ⟨_, fun _ => rfl, rfl⟩))
  | pulled hs hpc =>
    refine h.moves rfl (inFlight_above hs (fun _ => ?_) (.inl rfl))
    rcases hpc with rfl | rfl <;> rfl
  | push hs =>
    obtain ⟨-, -, hstack⟩ := pushed_frame s _ _ _ a.internallyPending _
    refine h.alike (fun side' => pushed_alike s _ side' _ _ _ _)
      (inFlight_above hs (fun _ => rfl) (hstack.imp id ?_))
    exact fun ⟨pc, hpc⟩ => ⟨_, fun _ => rfl, hpc⟩
  | data hs =>
    exact h.moves rfl (inFlight_above hs (fun _ => rfl) (.inr ⟨_, fun _ => rfl, rfl⟩))
  | pushed hs => exact h.moves rfl (inFlight_above hs (fun _ => rfl) (.inl rfl))

end

/-- The binding reports no error to a `_pull` that hands a Buffer over. -/
def Calm (s : Pair) : Action → Prop
  | .go a => ∀ side havePending rest,
    s.stack = .pull side havePending .loop :: rest → a.error = none
  | _ => True

theorem balanced_step {s s' : Pair} {a : Action} (h : Balanced s) (hframed : Framed s)
    (hcalm : Calm s a) (hstep : step s a = some s') : Balanced s' := by
  have hpause : ∀ (x : CryptoStream) (paused : Bool), Alike x { x with paused := paused } :=
    fun _ _ => ⟨rfl, rfl, rfl, rfl, rfl, rfl, rfl, id⟩
  cases stepped_of_step hstep with
  | write side data cb hwritable => exact h.write hwritable data cb
  | finish side => exact h.finish side
  | endWith side data hwritable =>
    have hcall : Balanced { s with stack := .end side :: s.stack } :=
      h.moves rfl fun _ => inFlight_cons rfl _
    exact hcall.write hwritable data none
  | endLate => exact h
  | pause side => exact h.alike (fun side' => update_alike (hpause _ true) side') fun _ => rfl
  | resume side =>
    exact Balanced.cycle (h.alike (fun side' => update_alike (hpause _ false) side') fun _ => rfl) 0
  | destroy =>
    refine h.alike (destroy_alike s) fun side => ?_
    rw [(destroy_frame s).1]
  | cycle => exact h.cycle 0
  | returns hreturns => exact balanced_returns h hframed hreturns
  | goes hgoes => exact balanced_goes h hframed hcalm hgoes

theorem balanced_new (isServer rejectUnauthorized : Bool) :
    Balanced (.new isServer rejectUnauthorized) :=
  fun _ => ⟨rfl, rfl, rfl, trivial, fun _ => ⟨List.not_mem_nil, rfl⟩, nofun, nofun⟩

/-- `_pendingBytes` is the length of what is in `_pending` and of the Buffer that is just being
handed over. The Buffers are accepted in the order of the writes, each once, and `END_OF_FILE` is
processed behind them. -/
theorem accounts (isServer rejectUnauthorized : Bool) {s : Pair}
    (h : Reach step Calm (.new isServer rejectUnauthorized) s) (side : Side) :
    (s.stream side).pendingCallbacks.length = (s.stream side).pending.length ∧
    (s.stream side).pendingBytes =
      size (s.stream side).pending + flightSize (inFlight side s.stack) ∧
    0 ≤ (s.stream side).pendingBytes ∧
    (s.stream side).accepted ++ putBack (inFlight side s.stack) ++
      buffers (s.stream side).pending = (s.stream side).offered ∧
    ((s.stream side).ended = true → (s.stream side).accepted = (s.stream side).offered) := by
  have hinv : Framed s ∧ Balanced s := by
    refine h.invariant (P := fun s => Framed s ∧ Balanced s)
      ⟨framed_new _ _, balanced_new _ _⟩ fun s a s' hs hcalm hstep => ?_
    exact ⟨framed_step hs.1 hstep, balanced_step hs.2 hs.1 hcalm hstep⟩
  have haccount := hinv.2 side
  have hbytes := haccount.bytes
  refine ⟨haccount.callbacks, hbytes, by omega, haccount.order, fun hended => ?_⟩
  obtain ⟨hback, hnone⟩ := haccount.ended hended
  have horder := haccount.order
  rw [hback, hnone, List.append_nil, List.append_nil] at horder
  exact horder

/-- The binding has nothing to read and finishes no handshake. -/
def idle : Answer := ⟨true, -1, none, false, false⟩

def finishing : Answer := ⟨true, -1, none, true, false⟩

/-- A Buffer is accepted, and `'secure'` is emitted before it is settled. -/
theorem accounts_secure : ∃ s, run step (.new false false)
      [.write .encrypted [1] none, .go idle, .go finishing] = some s ∧
    (s.stream .encrypted).accepted = [[1]] ∧
    (s.stream .encrypted).pendingBytes =
      size (s.stream .encrypted).pending + flightSize (inFlight .encrypted s.stack) := by
  obtain ⟨s, hs, haccepted⟩ : ∃ s, run step (.new false false)
      [.write .encrypted [1] none, .go idle, .go finishing] = some s ∧
      (s.stream .encrypted).accepted = [[1]] := ⟨_, rfl, rfl⟩
  have hreach : Reach step Calm (.new false false) s :=
    reach_of_along hs (along_cons rfl trivial (along_cons rfl (fun _ _ _ _ => rfl)
      (along_cons rfl (fun _ _ _ _ => rfl) trivial)))
  exact ⟨s, hs, haccepted, (accounts false false hreach .encrypted).2.1⟩

/-- A listener for `'secure'` sees `_pendingBytes` before the Buffer is settled. -/
theorem not_accounts : ¬ ∀ s, Reach step Calm (.new false false) s → ∀ side,
    (s.stream side).pendingBytes = size (s.stream side).pending := by
  intro h
  obtain ⟨s, hs, hbytes, hpending⟩ : ∃ s, run step (.new false false)
      [.write .encrypted [1] none, .go idle, .go finishing] = some s ∧
      (s.stream .encrypted).pendingBytes = 1 ∧ (s.stream .encrypted).pending = [] :=
    ⟨_, rfl, rfl, rfl⟩
  have hreach : Reach step Calm (.new false false) s :=
    reach_of_along hs (along_cons rfl trivial (along_cons rfl (fun _ _ _ _ => rfl)
      (along_cons rfl (fun _ _ _ _ => rfl) trivial)))
  have hequal := h s hreach .encrypted
  rw [hbytes, hpending] at hequal
  exact absurd hequal (by decide)

end NodeJS.Tls
