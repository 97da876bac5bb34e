import NodeJS.Fs.ReadStream

/-! Which runs of a `ReadStream` emit every chunk once, in order and not after `destroy`. -/
namespace NodeJS.Fs.ReadStream

variable {δ : Type} (decode : δ → Bytes → δ × JSString)

/-- The chunk that waits for `resume`, unless its listeners are being called. -/
def parked (s : ReadStream δ) : List Bytes := if .resumed ∈ s.stack then [] else s.buffer.toList

def deliver : Option δ × List Data → Bytes → Option δ × List Data
  | (none, data), b => (none, data ++ [.buffer b])
  | (some decoder, data), b =>
    (some (decode decoder b).1,
      if (decode decoder b).2.length ≠ 0 then data ++ [.string (decode decoder b).2] else data)

/-- The `'data'` events for a list of chunks, each passed to the decoder once. -/
def delivered (decoder : Option δ) (chunks : List Bytes) : Option δ × List Data :=
  chunks.foldl (deliver decode) (decoder, [])

/-- Every chunk that was read was emitted once and in order, but for one that waits for `resume`,
as long as the stream is not destroyed; nothing was emitted after `destroy`. -/
structure Intact (decoder : Option δ) (s : ReadStream δ) : Prop where
  chunks : s.destroyed = false → ∃ chunks, chunks ++ s.parked = s.received ∧
    s.data = (delivered decode decoder chunks).2
  late : s.late = []

/-- A chunk that waits is not emitted after `destroy`, nor by a `resume` that a listener calls
while another `resume` emits it; and no listener of `'error'` starts another read. -/
def Careful (s : ReadStream δ) : Action → Prop
  | .resume => (s.buffer.isSome = true → s.destroyed = false ∧ .resumed ∉ s.stack) ∧
    (.failed ∈ s.stack → s.fd.isSome = true → s.readable = false)
  | _ => True

/-! ### The invariant -/

/-- Calls do not nest: while listeners run, a chunk waits only where they are its own. -/
def Shallow (s : ReadStream δ) : Prop :=
  s.stack = [] ∨ (s.stack = [.resumed] ∧ s.buffer.isSome = true) ∨
    ∃ f, f ≠ .resumed ∧ s.stack = [f] ∧ s.buffer = none ∧ s.opening = false

structure Orderly (decoder : Option δ) (s : ReadStream δ) : Prop where
  late : s.late = []
  data : (s.decoder, s.data) = delivered decode decoder s.given
  chunks : s.destroyed = false → s.given ++ s.parked = s.received
  reads : s.reads.length = if s.reading then 1 else 0
  buffer : s.reading = true → s.buffer = none
  opening : s.opening = true → s.fd = none ∧ s.buffer = none ∧ s.reading = false
  destroyed : s.destroyed = true → s.readable = false
  unreadable : s.readable = false → s.destroyed = false → s.reading = false
  failed : .failed ∈ s.stack → s.reading = false
  stack : s.Shallow

variable {decode} {decoder : Option δ} {s s' : ReadStream δ}

theorem parked_of_none (h : s.buffer = none) : s.parked = [] := by
  unfold parked
  rw [h]
  split_ifs
  · rfl
  · rfl

/-- Where no chunk waits, all were passed on. -/
theorem chunks_of_none (hb : s.buffer = none) (h : s.destroyed = false → s.given = s.received) :
    s.destroyed = false → s.given ++ s.parked = s.received := by
  rw [parked_of_none hb, List.append_nil]
  exact h

theorem Orderly.given_eq (h : Orderly decode decoder s) (hb : s.buffer = none) :
    s.destroyed = false → s.given = s.received := by
  have hc := h.chunks
  rw [parked_of_none hb, List.append_nil] at hc
  exact hc

theorem read_eq (s : ReadStream δ) :
    s.read = s ∨ (s.readable = true ∧ s.paused = false ∧ s.reading = false ∧
      s.read = { s with
        reading := true
        pool := some (s.poolUsed + s.toRead)
        firstRead := s.firstRead && !s.start.isSome
        pos := s.readPos.map (· + s.toRead)
        reads := s.reads ++ [⟨s.toRead, s.readPos⟩] }) := by
  unfold read
  split_ifs with h
  · exact Or.inl rfl
  · simp only [Bool.or_eq_true, Bool.not_eq_true', not_or, Bool.not_eq_false,
      Bool.not_eq_true] at h
    exact Or.inr ⟨h.1.1, h.1.2, h.2, rfl⟩

/-- Another read does no harm where no chunk waits. -/
theorem Orderly.read (h : Orderly decode decoder s) (hbuffer : s.buffer = none)
    (hopening : s.opening = false) (hfailed : s.readable = true → .failed ∉ s.stack) :
    Orderly decode decoder s.read := by
  rcases read_eq s with heq | ⟨hreadable, -, hreading, heq⟩
  · rw [heq]
    exact h
  · rw [heq]
    refine ⟨h.late, h.data, h.chunks, ?_, fun _ => hbuffer, ?_, h.destroyed, ?_, ?_, h.stack⟩
    · have hreads := h.reads
      rw [hreading] at hreads
      show (s.reads ++ [_]).length = 1
      rw [List.length_append, hreads]
      rfl
    · intro ho
      cases hopening.symm.trans ho
    · intro hr
      cases hreadable.symm.trans hr
    · intro hf
      exact absurd hf (hfailed hreadable)

/-- The stream after a chunk was passed to `_emitData`. -/
def took (decode : δ → Bytes → δ × JSString) (s : ReadStream δ) (b : Bytes) : ReadStream δ :=
  { s with
    given := s.given ++ [b]
    decoder := (deliver decode (s.decoder, s.data) b).1
    data := (deliver decode (s.decoder, s.data) b).2 }

variable (decode) in
theorem emitData_eq (s : ReadStream δ) (b : Bytes) (hd : s.destroyed = false) :
    (s.emitData decode b).1 = s.took decode b := by
  unfold emitData took deliver
  cases hdec : s.decoder with
  | none =>
    dsimp only
    unfold emit
    rw [hd]
    rfl
  | some dec =>
    dsimp only
    split_ifs
    · unfold emit
      rw [hd]
      rfl
    · rfl

variable (decode) in
theorem emitThen_eq (s : ReadStream δ) (b : Bytes) (f : Frame) (hd : s.destroyed = false) :
    s.emitThen decode b f = { s.took decode b with stack := f :: s.stack } ∨
      s.emitThen decode b f = (s.took decode b).leave f := by
  have heq := emitData_eq decode s b hd
  unfold emitThen
  dsimp only
  rw [heq]
  split_ifs
  · exact Or.inl rfl
  · exact Or.inr rfl

theorem delivered_snoc (decoder : Option δ) (chunks : List Bytes) (b : Bytes) :
    delivered decode decoder (chunks ++ [b]) =
      deliver decode (delivered decode decoder chunks) b := List.foldl_concat ..

theorem Orderly.took_data (h : Orderly decode decoder s) (b : Bytes) :
    ((s.took decode b).decoder, (s.took decode b).data) =
      delivered decode decoder (s.given ++ [b]) := by
  rw [delivered_snoc, ← h.data]
  rfl

/-! ### The steps -/

/-- `resume` on a stream that is not paused. -/
theorem Orderly.flow (h : Orderly decode decoder s) (hc : s.Careful .resume) :
    Orderly decode decoder (match s.buffer with
      | some b => s.emitThen decode b .resumed
      | none => if s.fd.isNone then s else s.read) := by
  have hfailed : s.fd.isNone = false → s.readable = true → .failed ∉ s.stack := by
    intro hfd hreadable hf
    cases hreadable.symm.trans (hc.2 hf (by simpa using hfd))
  have hopening : s.fd.isNone = false → s.opening = false := by
    intro hfd
    by_contra ho
    rw [(h.opening (by simpa using ho)).1] at hfd
    cases hfd
  cases hb : s.buffer with
  | none =>
    dsimp only
    cases hfd : s.fd.isNone with
    | true => exact h
    | false => exact h.read hb (hopening hfd) (hfailed hfd)
  | some b =>
    obtain ⟨hd, hres⟩ := hc.1 (by rw [hb]; rfl)
    have hparked : s.parked = [b] := by
      unfold parked
      rw [if_neg hres, hb]
      rfl
    have hreading : s.reading = false := by
      by_contra hr
      rw [h.buffer (by simpa using hr)] at hb
      cases hb
    have hempty : s.stack = [] := by
      rcases h.stack with he | ⟨he, _⟩ | ⟨f, _, _, he, _⟩
      · exact he
      · exact absurd (he ▸ List.mem_cons_self) hres
      · rw [he] at hb
        cases hb
    have hdata := h.took_data b
    have hgiven : s.given ++ [b] = s.received := hparked ▸ h.chunks hd
    dsimp only
    rcases emitThen_eq decode s b .resumed hd with heq | heq
    · rw [heq]
      refine ⟨h.late, hdata, fun _ => ?_, h.reads, h.buffer, h.opening, h.destroyed, h.unreadable,
        fun _ => hreading, Or.inr (Or.inl ⟨?_, ?_⟩)⟩
      · unfold parked
        rw [if_pos List.mem_cons_self, List.append_nil]
        exact hgiven
      · show Frame.resumed :: s.stack = _
        rw [hempty]
      · show s.buffer.isSome = true
        rw [hb]
        rfl
    · rw [heq]
      have hcleared : Orderly decode decoder { s.took decode b with buffer := none } := by
        refine ⟨h.late, hdata, fun _ => ?_, h.reads, fun _ => rfl, ?_, h.destroyed, h.unreadable,
          fun _ => hreading, Or.inl hempty⟩
        · rw [parked_of_none rfl, List.append_nil]
          exact hgiven
        · intro ho
          obtain ⟨hfd, -, hr⟩ := h.opening ho
          exact ⟨hfd, rfl, hr⟩
      have hleave : (s.took decode b).leave .resumed =
          if s.fd.isNone then { s.took decode b with buffer := none }
          else ({ s.took decode b with buffer := none } : ReadStream δ).read := rfl
      rw [hleave]
      cases hfd : s.fd.isNone with
      | true => exact hcleared
      | false => exact hcleared.read rfl (hopening hfd) (hfailed hfd)

theorem Orderly.resume (h : Orderly decode decoder s) (hc : s.Careful .resume) :
    Orderly decode decoder (s.resume decode) := by
  have h₁ : Orderly decode decoder { s with paused := false } :=
    ⟨h.late, h.data, h.chunks, h.reads, h.buffer, h.opening, h.destroyed, h.unreadable, h.failed,
      h.stack⟩
  exact h₁.flow hc

theorem Orderly.destroy (h : Orderly decode decoder s) : Orderly decode decoder s.destroy := by
  have hbase : ∀ n m, Orderly decode decoder
      { s with readable := false, destroyed := true, closes := n, openListeners := m } :=
    fun n m => ⟨h.late, h.data, nofun, h.reads, h.buffer, h.opening, fun _ => rfl, nofun, h.failed,
      h.stack⟩
  unfold ReadStream.destroy
  dsimp only
  split
  · exact hbase _ _
  · exact hbase _ _

theorem Orderly.opened (h : Orderly decode decoder s) (ho : s.opening = true) (r : Option ℕ) :
    Orderly decode decoder (s.afterOpen r) := by
  obtain ⟨-, hbuffer, hreading⟩ := h.opening ho
  cases r with
  | none =>
    exact ⟨h.late, h.data, chunks_of_none hbuffer (h.given_eq hbuffer), h.reads, h.buffer, nofun,
      h.destroyed, h.unreadable, fun _ => hreading,
      Or.inr (Or.inr ⟨.failed, nofun, rfl, hbuffer, rfl⟩)⟩
  | some fd =>
    exact ⟨h.late, h.data, chunks_of_none hbuffer (h.given_eq hbuffer), h.reads, h.buffer, nofun,
      h.destroyed, h.unreadable, fun _ => hreading,
      Or.inr (Or.inr ⟨.opened, nofun, rfl, hbuffer, rfl⟩)⟩

theorem Orderly.completed (h : Orderly decode decoder s) (hstack : s.stack = []) {i : ℕ}
    {read : Read} (hread : s.reads[i]? = some read) (r : Option Bytes) :
    Orderly decode decoder ({ s with reads := s.reads.eraseIdx i }.afterRead decode r) := by
  obtain ⟨hi, -⟩ := List.getElem?_eq_some_iff.mp hread
  have hreading : s.reading = true := by
    by_contra hr
    have hreads := h.reads
    rw [if_neg hr] at hreads
    omega
  have hbuffer := h.buffer hreading
  have hopening : s.opening = false := by
    by_contra ho
    cases hreading.symm.trans (h.opening (by simpa using ho)).2.2
  have hreads : (s.reads.eraseIdx i).length = 0 := by
    have hlen := h.reads
    rw [hreading, if_pos rfl] at hlen
    rw [List.length_eraseIdx_of_lt hi, hlen]
  have hgiven := h.given_eq hbuffer
  have hnotopening : s.opening = true → s.fd = none ∧ s.buffer = none ∧ false = false := by
    intro ho
    cases hopening.symm.trans ho
  -- the callback with a frame that is not that of `resume`
  have hframe : ∀ f : Frame, f ≠ .resumed → ∀ ended, Orderly decode decoder
      { s with reads := s.reads.eraseIdx i, reading := false, ended := ended, stack := [f] } :=
    fun f hf ended => ⟨h.late, h.data, chunks_of_none hbuffer hgiven, hreads, nofun, hnotopening,
      h.destroyed, fun _ _ => rfl, fun _ => rfl,
      Or.inr (Or.inr ⟨f, hf, rfl, hbuffer, hopening⟩)⟩
  match r with
  | none => exact hframe .failed nofun s.ended
  | some [] => exact hframe .ended nofun true
  | some (c :: b) =>
    unfold afterRead
    dsimp only
    split_ifs with hpaused hreadable
    · refine ⟨h.late, h.data, ?_, hreads, nofun, ?_, h.destroyed, fun _ _ => rfl, fun _ => rfl,
        Or.inl hstack⟩
      · intro hd
        unfold parked
        rw [if_neg (by rw [hstack]; exact List.not_mem_nil)]
        exact congrArg (· ++ [c :: b]) (hgiven hd)
      · intro ho
        cases hopening.symm.trans ho
    · refine ⟨h.late, h.data, ?_, hreads, nofun, hnotopening, h.destroyed, fun _ _ => rfl,
        fun _ => rfl, Or.inl hstack⟩
      intro hd
      cases hreading.symm.trans (h.unreadable (by simpa using hreadable) hd)
    · have hd : s.destroyed = false := by
        by_contra hd
        exact hreadable (by rw [h.destroyed (by simpa using hd)]; rfl)
      let t : ReadStream δ := { s with
        reads := s.reads.eraseIdx i
        reading := false
        received := s.received ++ [c :: b] }
      have htook : ∀ stack, Shallow { t.took decode (c :: b) with stack := stack } →
          Orderly decode decoder { t.took decode (c :: b) with stack := stack } :=
        fun stack hshallow => ⟨h.late, h.took_data (c :: b),
          chunks_of_none hbuffer fun hd => congrArg (· ++ [c :: b]) (hgiven hd), hreads, nofun,
          hnotopening, h.destroyed, fun _ _ => rfl, fun _ => rfl, hshallow⟩
      rcases emitThen_eq decode t (c :: b) .read hd with heq | heq
      · have hpush := htook [.read] (Or.inr (Or.inr ⟨.read, nofun, rfl, hbuffer, hopening⟩))
        have hstack' : (Frame.read :: t.stack) = [.read] := congrArg (List.cons _) hstack
        rw [heq, hstack']
        exact hpush
      · have hnone := htook t.stack (Or.inl hstack)
        rw [heq]
        refine Orderly.read hnone hbuffer hopening fun _ => ?_
        show .failed ∉ s.stack
        rw [hstack]
        exact List.not_mem_nil

/-- A frame that is not that of `resume` is left. -/
theorem Orderly.popped (h : Orderly decode decoder s) (hbuffer : s.buffer = none) :
    Orderly decode decoder { s with stack := [] } :=
  ⟨h.late, h.data, chunks_of_none hbuffer (h.given_eq hbuffer), h.reads, h.buffer, h.opening,
    h.destroyed, h.unreadable, nofun, Or.inl rfl⟩

theorem Orderly.ret (h : Orderly decode decoder s) {f : Frame} {stack : List Frame}
    (hstack : s.stack = f :: stack) :
    Orderly decode decoder ({ s with stack := stack }.leave f) := by
  rcases h.stack with he | ⟨he, hb⟩ | ⟨g, hg, he, hb, ho⟩
  · cases hstack.symm.trans he
  · obtain ⟨rfl, rfl⟩ := List.cons.inj (hstack.symm.trans he)
    have hreading : s.reading = false := by
      by_contra hr
      rw [h.buffer (by simpa using hr)] at hb
      cases hb
    have hopening : s.opening = false := by
      by_contra ho
      rw [(h.opening (by simpa using ho)).2.1] at hb
      cases hb
    have hgiven : s.destroyed = false → s.given = s.received := by
      have hc := h.chunks
      unfold parked at hc
      rw [if_pos (by rw [he]; exact List.mem_cons_self), List.append_nil] at hc
      exact hc
    have hcleared : Orderly decode decoder { s with stack := [], buffer := none } := by
      refine ⟨h.late, h.data, chunks_of_none rfl hgiven, h.reads, fun _ => rfl, ?_, h.destroyed,
        h.unreadable, nofun, Or.inl rfl⟩
      intro ho
      cases hopening.symm.trans ho
    have hleave : ({ s with stack := [] } : ReadStream δ).leave .resumed =
        if s.fd.isNone then { s with stack := [], buffer := none }
        else ({ s with stack := [], buffer := none } : ReadStream δ).read := rfl
    rw [hleave]
    split_ifs
    · exact hcleared
    · exact hcleared.read rfl hopening fun _ => List.not_mem_nil
  · obtain ⟨rfl, rfl⟩ := List.cons.inj (hstack.symm.trans he)
    have hpopped := h.popped hb
    cases f with
    | read => exact hpopped.read hb ho fun _ => List.not_mem_nil
    | opened => exact hpopped.read hb ho fun _ => List.not_mem_nil
    | resumed => exact absurd rfl hg
    | ended => exact hpopped.destroy
    | failed =>
      have hreading := h.failed (by rw [he]; exact List.mem_cons_self)
      exact ⟨h.late, h.data, hpopped.chunks, h.reads, h.buffer, h.opening, fun _ => rfl,
        fun _ _ => hreading, nofun, Or.inl rfl⟩

theorem Orderly.step {a : Action} (h : Orderly decode decoder s) (hc : s.Careful a)
    (ha : s.step decode a = some s') : Orderly decode decoder s' := by
  cases a with
  | opened r =>
    dsimp only [ReadStream.step] at ha
    split_ifs at ha with hguard
    obtain rfl := Option.some.inj ha
    rw [Bool.and_eq_true] at hguard
    exact h.opened hguard.1 r
  | completed i r =>
    dsimp only [ReadStream.step] at ha
    split at ha
    · cases ha
    · rename_i read hread
      split_ifs at ha with hguard
      obtain rfl := Option.some.inj ha
      rw [Bool.and_eq_true] at hguard
      exact h.completed (List.isEmpty_iff.mp hguard.1) hread r
  | pause =>
    obtain rfl := Option.some.inj ha
    exact ⟨h.late, h.data, h.chunks, h.reads, h.buffer, h.opening, h.destroyed, h.unreadable,
      h.failed, h.stack⟩
  | resume =>
    obtain rfl := Option.some.inj ha
    exact h.resume hc
  | destroy =>
    obtain rfl := Option.some.inj ha
    exact h.destroy
  | ret =>
    dsimp only [ReadStream.step] at ha
    split at ha
    · cases ha
    · rename_i f stack hstack
      obtain rfl := Option.some.inj ha
      exact h.ret hstack
  | pool used =>
    obtain rfl := Option.some.inj ha
    exact ⟨h.late, h.data, h.chunks, h.reads, h.buffer, h.opening, h.destroyed, h.unreadable,
      h.failed, h.stack⟩

theorem orderly_new (fd : Option ℕ) (bufferSize : ℕ) (range : Option Range)
    (decoder : Option δ) : Orderly decode decoder (new fd bufferSize range decoder) where
  late := rfl
  data := rfl
  chunks _ := rfl
  reads := rfl
  buffer _ := rfl
  opening ho := ⟨Option.isNone_iff_eq_none.mp ho, rfl, rfl⟩
  destroyed := nofun
  unreadable := nofun
  failed := nofun
  stack := Or.inl rfl

/-- In a careful run every chunk is emitted once and in order as long as the stream is not
destroyed, and nothing is emitted after that. -/
theorem intact_of_reach {fd : Option ℕ} {bufferSize : ℕ} {range : Option Range}
    (h : Lib.Reach (step decode) Careful (new fd bufferSize range decoder) s) :
    Intact decode decoder s := by
  have horderly : Orderly decode decoder s :=
    h.invariant (orderly_new fd bufferSize range decoder) fun _ _ _ hs hc ha => hs.step hc ha
  refine ⟨fun hd => ⟨s.given, horderly.chunks hd, ?_⟩, horderly.late⟩
  rw [← horderly.data]

theorem intact_of_reach_parked :
    ∃ s, Lib.run (step fun (_ : Unit) _ => ((), [])) (new none 65536 none none)
        [.opened (some 3), .ret, .pause, .completed 0 (some [97]), .resume, .ret] = some s ∧
      Intact (fun _ _ => ((), [])) none s := by
  obtain ⟨s, hs⟩ : ∃ s, Lib.run (step fun (_ : Unit) _ => ((), [])) (new none 65536 none none)
      [.opened (some 3), .ret, .pause, .completed 0 (some [97]), .resume, .ret] = some s := ⟨_, rfl⟩
  refine ⟨s, hs, intact_of_reach (Lib.reach_of_along hs ?_)⟩
  refine Lib.along_cons rfl trivial (Lib.along_cons rfl trivial (Lib.along_cons rfl trivial
    (Lib.along_cons rfl trivial (Lib.along_cons rfl ⟨?_, ?_⟩ (Lib.along_cons rfl trivial trivial)))))
  · intro _
    exact ⟨rfl, List.not_mem_nil⟩
  · intro hf
    cases hf

/-- A listener that calls `resume` while `resume` emits a chunk is passed the chunk again. -/
theorem not_intact :
    ¬ ∀ (fd : Option ℕ) (bufferSize : ℕ) (range : Option Range) (decoder : Option Unit)
      (decode : Unit → Bytes → Unit × JSString) (s : ReadStream Unit),
      Lib.Reach (step decode) (fun _ _ => True) (new fd bufferSize range decoder) s →
      Intact decode decoder s := by
  intro h
  have hrun : Lib.run (step fun (_ : Unit) _ => ((), [])) (new none 65536 none none)
      [.opened (some 3), .ret, .pause, .completed 0 (some [97]), .resume, .resume] = some _ := rfl
  have hintact := h none 65536 none none _ _ (Lib.reach_of_run hrun fun _ _ => trivial)
  obtain ⟨chunks, hchunks, hdata⟩ := hintact.chunks rfl
  have hone : chunks = [[97]] := (List.append_nil chunks).symm.trans hchunks
  rw [hone] at hdata
  cases hdata

/-- A chunk that waits is emitted after `destroy`. -/
example : ∃ s : ReadStream Unit, Lib.run (step fun _ _ => ((), [])) (new none 65536 none none)
    [.opened (some 3), .ret, .pause, .completed 0 (some [97]), .destroy, .resume] = some s ∧
      s.late = [.buffer [97]] := ⟨_, rfl, rfl⟩

end NodeJS.Fs.ReadStream
