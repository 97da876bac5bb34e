import NodeJS.Fs.Chunks
import NodeJS.Fs.WriteStream

/-! How often a stream calls `fs.close`. -/
namespace NodeJS.Fs

/-- A descriptor that `if (this.fd)` finds. -/
def truthy : Option ℕ → Bool
  | some (_ + 1) => true
  | _ => false

namespace ReadStream
variable {δ : Type} {decode : δ → Bytes → δ × JSString}

/-- `destroy` was not called before on a stream that is open, be it by the stream itself after
`'end'`, and at most once on one that is opened now. -/
def Once (s : ReadStream δ) : Action → Prop
  | .opened (some _) => s.openListeners ≤ 1
  | .destroy => truthy s.fd = true → s.destroyed = false
  | .ret => s.stack.head? = some .ended → truthy s.fd = true → s.destroyed = false
  | _ => True

/-- The fields that only `destroy` and the opening of the file change. -/
structure Same (s t : ReadStream δ) : Prop where
  fd : t.fd = s.fd
  opening : t.opening = s.opening
  closes : t.closes = s.closes
  destroyed : t.destroyed = s.destroyed
  openListeners : t.openListeners = s.openListeners

structure Counted (s : ReadStream δ) : Prop where
  opening : s.opening = true → s.fd = none
  unopened : s.fd = none → s.closes = 0 ∧ (s.openListeners = 0 ↔ s.destroyed = false)
  opened : truthy s.fd = true → (s.closes = 0 ↔ s.destroyed = false)

variable {s s' t : ReadStream δ}

theorem Same.refl (s : ReadStream δ) : Same s s := ⟨rfl, rfl, rfl, rfl, rfl⟩

theorem Same.trans {u : ReadStream δ} (h : Same s t) (h' : Same t u) : Same s u :=
  ⟨h'.fd.trans h.fd, h'.opening.trans h.opening, h'.closes.trans h.closes,
    h'.destroyed.trans h.destroyed, h'.openListeners.trans h.openListeners⟩

theorem Same.counted (h : Same s t) (hs : s.Counted) : t.Counted := by
  refine ⟨?_, ?_, ?_⟩
  · rw [h.opening, h.fd]
    exact hs.opening
  · rw [h.fd, h.closes, h.openListeners, h.destroyed]
    exact hs.unopened
  · rw [h.fd, h.closes, h.destroyed]
    exact hs.opened

theorem same_read (s : ReadStream δ) : Same s s.read := by
  obtain heq | ⟨-, -, -, heq⟩ := read_eq s
  · rw [heq]
    exact .refl s
  · rw [heq]
    exact ⟨rfl, rfl, rfl, rfl, rfl⟩

variable (decode) in
theorem same_emitData (s : ReadStream δ) (b : Bytes) : Same s (s.emitData decode b).1 := by
  unfold emitData
  dsimp only
  split
  · exact ⟨rfl, rfl, rfl, rfl, rfl⟩
  · split_ifs
    · exact ⟨rfl, rfl, rfl, rfl, rfl⟩
    · exact ⟨rfl, rfl, rfl, rfl, rfl⟩

theorem same_leave {f : Frame} (hf : f ≠ .ended) (s : ReadStream δ) : Same s (s.leave f) := by
  cases f with
  | read => exact same_read s
  | opened => exact same_read s
  | resumed =>
    unfold leave
    dsimp only
    split_ifs
    · exact ⟨rfl, rfl, rfl, rfl, rfl⟩
    · have hcleared : Same s { s with buffer := none } := ⟨rfl, rfl, rfl, rfl, rfl⟩
      exact hcleared.trans (same_read _)
  | ended => exact absurd rfl hf
  | failed => exact ⟨rfl, rfl, rfl, rfl, rfl⟩

theorem same_emitThen {f : Frame} (hf : f ≠ .ended) (s : ReadStream δ) (b : Bytes) :
    Same s (s.emitThen decode b f) := by
  have hemit := same_emitData decode s b
  unfold emitThen
  dsimp only
  split_ifs
  · exact hemit.trans ⟨rfl, rfl, rfl, rfl, rfl⟩
  · exact hemit.trans (same_leave hf _)

theorem same_resume (s : ReadStream δ) : Same s (s.resume decode) := by
  have hpaused : Same s { s with paused := false } := ⟨rfl, rfl, rfl, rfl, rfl⟩
  unfold resume
  dsimp only
  split
  · exact hpaused.trans (same_emitThen (f := .resumed) nofun _ _)
  · split_ifs
    · exact hpaused
    · exact hpaused.trans (same_read _)

theorem same_afterRead (s : ReadStream δ) (r : Option Bytes) : Same s (s.afterRead decode r) := by
  match r with
  | none => exact ⟨rfl, rfl, rfl, rfl, rfl⟩
  | some [] => exact ⟨rfl, rfl, rfl, rfl, rfl⟩
  | some (c :: b) =>
    unfold afterRead
    dsimp only
    split_ifs
    · exact ⟨rfl, rfl, rfl, rfl, rfl⟩
    · exact ⟨rfl, rfl, rfl, rfl, rfl⟩
    · have hreceived : Same s { s with reading := false, received := s.received ++ [c :: b] } :=
        ⟨rfl, rfl, rfl, rfl, rfl⟩
      exact hreceived.trans (same_emitThen (f := .read) nofun _ _)

/-- What `destroy` does. -/
theorem counted_destroy (h : s.Counted) (hle : s.closes ≤ 1) :
    s.destroy.Counted ∧
      (s.destroy.closes ≤ 1 ↔ (truthy s.fd = true → s.destroyed = false)) := by
  unfold destroy
  dsimp only
  split
  · rename_i fd hfd
    have htruthy : truthy s.fd = true := by
      rw [hfd]
      rfl
    refine ⟨⟨h.opening, ?_, fun _ => ⟨?_, ?_⟩⟩, ?_⟩
    · intro hnone
      cases hfd.symm.trans hnone
    · intro hzero
      cases hzero
    · intro hd
      cases hd
    · rw [← h.opened htruthy]
      show s.closes + 1 ≤ 1 ↔ _
      constructor
      · intro hclose _
        omega
      · intro hclose
        have hzero := hclose htruthy
        omega
  · rename_i hfd
    have hfalse : truthy s.fd = false := by
      unfold truthy
      split
      · rename_i n hn
        exact absurd hn (hfd n)
      · rfl
    refine ⟨⟨h.opening, fun hnone => ⟨(h.unopened hnone).1, ?_, ?_⟩, ?_⟩, ?_⟩
    · intro hzero
      cases hzero
    · intro hd
      cases hd
    · intro htrue
      cases hfalse.symm.trans htrue
    · refine ⟨fun _ htrue => ?_, fun _ => hle⟩
      cases hfalse.symm.trans htrue

/-- What the opening of the file does. -/
theorem counted_afterOpen (h : s.Counted) (hopening : s.opening = true) (r : Option ℕ) :
    (s.afterOpen r).Counted ∧ ((s.afterOpen r).closes ≤ 1 ↔ s.Once (.opened r)) := by
  have hnone := h.opening hopening
  obtain ⟨hzero, hlisteners⟩ := h.unopened hnone
  cases r with
  | none =>
    refine ⟨⟨nofun, h.unopened, h.opened⟩, fun _ => trivial, fun _ => ?_⟩
    show s.closes ≤ 1
    omega
  | some fd =>
    refine ⟨⟨nofun, nofun, fun _ => ?_⟩, ?_⟩
    · show s.closes + s.openListeners = 0 ↔ s.destroyed = false
      rw [hzero, Nat.zero_add]
      exact hlisteners
    · show s.closes + s.openListeners ≤ 1 ↔ s.openListeners ≤ 1
      rw [hzero, Nat.zero_add]

theorem Same.le_one (h : Same s t) (hle : s.closes ≤ 1) : t.closes ≤ 1 := by
  rw [h.closes]
  exact hle

/-- Exactly when a step leaves it at one call of `fs.close`. -/
theorem counted_step (h : s.Counted) (hle : s.closes ≤ 1) {a : Action}
    (ha : s.step decode a = some s') : s'.Counted ∧ (s'.closes ≤ 1 ↔ s.Once a) := by
  have hquiet : Same s s' → s.Once a → s'.Counted ∧ (s'.closes ≤ 1 ↔ s.Once a) :=
    fun hsame honce => ⟨hsame.counted h, fun _ => honce, fun _ => hsame.le_one hle⟩
  cases a with
  | opened r =>
    dsimp only [step] at ha
    split_ifs at ha with hguard
    obtain rfl := Option.some.inj ha
    exact counted_afterOpen h (Bool.and_eq_true_iff.mp hguard).1 r
  | completed i r =>
    dsimp only [step] at ha
    split at ha
    · cases ha
    · split_ifs at ha
      obtain rfl := Option.some.inj ha
      have hreturned : Same s { s with reads := s.reads.eraseIdx i } := ⟨rfl, rfl, rfl, rfl, rfl⟩
      exact hquiet (hreturned.trans (same_afterRead _ r)) trivial
  | pause =>
    obtain rfl := Option.some.inj ha
    exact hquiet ⟨rfl, rfl, rfl, rfl, rfl⟩ trivial
  | resume =>
    obtain rfl := Option.some.inj ha
    exact hquiet (same_resume s) trivial
  | destroy =>
    obtain rfl := Option.some.inj ha
    exact counted_destroy h hle
  | ret =>
    dsimp only [step] at ha
    split at ha
    · cases ha
    · rename_i f stack hstack
      obtain rfl := Option.some.inj ha
      have hpopped : Same s { s with stack := stack } := ⟨rfl, rfl, rfl, rfl, rfl⟩
      by_cases hf : f = .ended
      · obtain ⟨hcounted, hiff⟩ := counted_destroy (hpopped.counted h) (hpopped.le_one hle)
        rw [hf]
        refine ⟨hcounted, hiff.trans ⟨fun honce _ => honce, fun honce => honce ?_⟩⟩
        rw [hstack, hf]
        rfl
      · refine hquiet (hpopped.trans (same_leave hf _)) fun hhead => ?_
        rw [hstack] at hhead
        exact absurd (Option.some.inj hhead) hf
  | pool used =>
    obtain rfl := Option.some.inj ha
    exact hquiet ⟨rfl, rfl, rfl, rfl, rfl⟩ trivial

theorem counted_new (fd : Option ℕ) (bufferSize : ℕ) (range : Option Range) (decoder : Option δ) :
    (new fd bufferSize range decoder).Counted where
  opening ho := Option.isNone_iff_eq_none.mp ho
  unopened _ := ⟨rfl, fun _ => rfl, fun _ => rfl⟩
  opened _ := ⟨fun _ => rfl, fun _ => rfl⟩

/-- Exactly when a run calls `fs.close` at most once. -/
theorem closes_iff (fd : Option ℕ) (bufferSize : ℕ) (range : Option Range) (decoder : Option δ)
    (as : List Action) :
    Lib.Along (step decode) (fun _ _ s' => s'.closes ≤ 1) (new fd bufferSize range decoder) as ↔
      Lib.Along (step decode) (fun s a _ => s.Once a) (new fd bufferSize range decoder) as :=
  Lib.along_iff_while (J := fun s => s.Counted ∧ s.closes ≤ 1)
    ⟨counted_new fd bufferSize range decoder, Nat.zero_le 1⟩
    (fun _ _ _ hs ha => (counted_step hs.1 hs.2 ha).2)
    (fun _ _ _ hs honce ha =>
      ⟨(counted_step hs.1 hs.2 ha).1, (counted_step hs.1 hs.2 ha).2.mpr honce⟩) as

end ReadStream

namespace WriteStream

/-- `flush` comes to a close. -/
def Closing (s : WriteStream) : Prop :=
  s.busy = false ∧ s.fd.isSome = true ∧ s.queue.head? = some .close

/-- Neither was `destroy` called nor did the queue come to a close. -/
def Unasked (s : WriteStream) : Prop := s.destroyed = false ∧ s.finished = false

/-- What closes a file that is open is the first thing to do so, and `destroy` was called at most once
on a stream that is opened now. -/
def Once (s : WriteStream) : Action → Prop
  | .called i (some _) => s.calls[i]? = some .open → s.openListeners ≤ 1
  | .destroy => truthy s.fd = true → s.Unasked
  | .end none => Closing { s with queue := s.queue ++ [.close] } → s.Unasked
  | .ret => s.Closing → s.Unasked
  | _ => True

structure Counted (s : WriteStream) : Prop where
  calls : s.calls.length ≤ if s.busy then 1 else 0
  opening : .open ∈ s.calls → s.fd = none
  queue : .open ∉ s.queue
  writable : s.writable = true → .close ∉ s.queue
  unopened : s.fd = none →
    s.closes = 0 ∧ s.finished = false ∧ (s.openListeners = 0 ↔ s.destroyed = false)
  opened : s.fd.isSome = true → (s.closes = 0 ↔ s.Unasked)

variable {s s' : WriteStream}

/-- What `flush` leaves alone, and where what it calls comes from. -/
structure Kept (s t : WriteStream) : Prop where
  fd : t.fd = s.fd
  openListeners : t.openListeners = s.openListeners
  destroyed : t.destroyed = s.destroyed
  writable : t.writable = s.writable
  queue : ∀ op ∈ t.queue, op ∈ s.queue
  calls : t.calls.length ≤ if t.busy then 1 else 0
  made : ∀ op ∈ t.calls, op ∈ s.calls ∨ op ∈ s.queue

/-- The queue without its first call, whether or not that call is made. -/
theorem kept_shift {op : Op} {queue : List Op} (hqueue : s.queue = op :: queue) (calls : List Op)
    (closes : ℕ) (finished : Bool) (hcalls : calls = [] ∨ calls = [op]) :
    Kept s { s with
      queue := queue, busy := true, calls := calls, closes := closes, finished := finished } where
  fd := rfl
  openListeners := rfl
  destroyed := rfl
  writable := rfl
  queue op' h := by
    rw [hqueue]
    exact List.mem_cons_of_mem op h
  calls := by
    show calls.length ≤ 1
    rcases hcalls with rfl | rfl
    · exact Nat.zero_le 1
    · exact Nat.le_refl 1
  made op' h := by
    right
    have hmem : op' ∈ calls := h
    rcases hcalls with rfl | rfl
    · cases hmem
    · rw [List.mem_singleton.mp hmem, hqueue]
      exact List.mem_cons_self

/-- What `flush` does to the calls of `fs.close`. -/
theorem flush_spec (hcalls : s.calls.length ≤ if s.busy then 1 else 0) :
    Kept s s.flush ∧
      (s.Closing → s.flush.closes = s.closes + 1 ∧ s.flush.finished = true) ∧
      (¬ s.Closing → s.flush.closes = s.closes ∧ s.flush.finished = s.finished) := by
  unfold flush
  split
  · rename_i hbusy
    refine ⟨⟨rfl, rfl, rfl, rfl, fun _ h => h, hcalls, fun _ h => Or.inl h⟩, ?_, fun _ => ⟨rfl, rfl⟩⟩
    intro hclosing
    cases hbusy.symm.trans hclosing.1
  · rename_i hbusy
    have hnil : s.calls = [] := by
      rw [if_neg hbusy] at hcalls
      exact List.length_eq_zero_iff.mp (Nat.le_zero.mp hcalls)
    split
    · rename_i hqueue
      have hclosing : ¬ s.Closing := by
        intro hclosing
        have hhead := hclosing.2.2
        rw [hqueue] at hhead
        cases hhead
      split
      · exact ⟨⟨rfl, rfl, rfl, rfl, fun _ h => h, hcalls, fun _ h => Or.inl h⟩,
          fun h => absurd h hclosing, fun _ => ⟨rfl, rfl⟩⟩
      · exact ⟨⟨rfl, rfl, rfl, rfl, fun _ h => h, hcalls, fun _ h => Or.inl h⟩,
          fun h => absurd h hclosing, fun _ => ⟨rfl, rfl⟩⟩
    · rename_i op queue hqueue
      have hhead : s.queue.head? = some op := by
        rw [hqueue]
        rfl
      have hother : op ≠ .close → ¬ s.Closing := by
        intro hop hclosing
        exact hop (Option.some.inj (hhead.symm.trans hclosing.2.2))
      unfold call
      cases op with
      | «open» =>
        dsimp only
        rw [hnil]
        exact ⟨kept_shift hqueue [.open] _ _ (Or.inr rfl), fun h => absurd h (hother nofun),
          fun _ => ⟨rfl, rfl⟩⟩
      | write b =>
        dsimp only
        rw [hnil]
        split_ifs
        · exact ⟨kept_shift hqueue [] _ _ (Or.inl rfl), fun h => absurd h (hother nofun),
            fun _ => ⟨rfl, rfl⟩⟩
        · exact ⟨kept_shift hqueue [.write b] _ _ (Or.inr rfl), fun h => absurd h (hother nofun),
            fun _ => ⟨rfl, rfl⟩⟩
      | close =>
        dsimp only
        rw [hnil]
        split_ifs with hnone
        · refine ⟨kept_shift hqueue [] _ _ (Or.inl rfl), fun hclosing => ?_, fun _ => ⟨rfl, rfl⟩⟩
          have hsome := hclosing.2.1
          rw [Option.isNone_iff_eq_none.mp hnone] at hsome
          cases hsome
        · refine ⟨kept_shift hqueue [.close] _ _ (Or.inr rfl), fun _ => ⟨rfl, rfl⟩,
            fun hclosing => ?_⟩
          have hsome : s.fd.isSome = true := Option.isSome_iff_ne_none.mpr (by simpa using hnone)
          exact absurd ⟨by simpa using hbusy, hsome, hhead⟩ hclosing

/-- Exactly when `flush` leaves it at one call of `fs.close`. -/
theorem Counted.flush (h : s.Counted) (hle : s.closes ≤ 1) :
    s.flush.Counted ∧ (s.flush.closes ≤ 1 ↔ (s.Closing → s.Unasked)) := by
  obtain ⟨hkept, hyes, hno⟩ := flush_spec h.calls
  have hqueue : .open ∉ s.flush.queue := fun hmem => h.queue (hkept.queue _ hmem)
  have hopening : .open ∈ s.flush.calls → s.flush.fd = none := by
    intro hmem
    rw [hkept.fd]
    exact h.opening ((hkept.made _ hmem).resolve_right h.queue)
  have hwritable : s.flush.writable = true → .close ∉ s.flush.queue := by
    rw [hkept.writable]
    exact fun hw hmem => h.writable hw (hkept.queue _ hmem)
  by_cases hclosing : s.Closing
  · obtain ⟨hcloses, hfinished⟩ := hyes hclosing
    refine ⟨⟨hkept.calls, hopening, hqueue, hwritable, ?_, fun _ => ?_⟩, ?_⟩
    · intro hnone
      have hsome := hclosing.2.1
      rw [← hkept.fd, hnone] at hsome
      cases hsome
    · unfold Unasked
      rw [hcloses, hfinished]
      exact ⟨nofun, nofun⟩
    · rw [hcloses, ← h.opened hclosing.2.1]
      constructor
      · intro hone _
        omega
      · intro hzero
        have hcloses := hzero hclosing
        omega
  · obtain ⟨hcloses, hfinished⟩ := hno hclosing
    refine ⟨⟨hkept.calls, hopening, hqueue, hwritable, ?_, ?_⟩, ?_⟩
    · rw [hkept.fd, hcloses, hfinished, hkept.openListeners, hkept.destroyed]
      exact h.unopened
    · unfold Unasked
      rw [hkept.fd, hcloses, hfinished, hkept.destroyed]
      exact h.opened
    · rw [hcloses]
      exact ⟨fun _ hc => absurd hc hclosing, fun _ => hle⟩

/-- A call that is not `fs.open` joins the queue of a stream, which may become unwritable. -/
theorem Counted.push (h : s.Counted) (op : Op) (writable drainable : Bool) (hop : op ≠ .open)
    (hwritable : writable = true → s.writable = true ∧ op ≠ .close) :
    Counted { s with
      queue := s.queue ++ [op], writable := writable, drainable := drainable } := by
  refine ⟨h.calls, h.opening, ?_, ?_, h.unopened, h.opened⟩
  · intro hmem
    rcases List.mem_append.mp hmem with hmem | hmem
    · exact h.queue hmem
    · exact hop (List.mem_singleton.mp hmem).symm
  · intro hw hmem
    obtain ⟨hs, hclose⟩ := hwritable hw
    rcases List.mem_append.mp hmem with hmem | hmem
    · exact h.writable hs hmem
    · exact hclose (List.mem_singleton.mp hmem).symm

theorem call_busy (s : WriteStream) (op : Op) : (s.call op).busy = s.busy := by
  unfold call
  cases op with
  | «open» => rfl
  | write b =>
    dsimp only
    split_ifs
    · rfl
    · rfl
  | close =>
    dsimp only
    split_ifs
    · rfl
    · rfl

theorem flush_busy (hqueue : s.queue ≠ []) : s.flush.busy = true := by
  unfold flush
  split
  · assumption
  · split
    · contradiction
    · rw [call_busy]

/-- A write never makes `flush` close the file, and leaves the stream busy. -/
theorem Counted.write (h : s.Counted) (hle : s.closes ≤ 1) {data : Chunk} {encoding : EncArg}
    (hs : s.write data encoding = some s') : s'.Counted ∧ s'.closes ≤ 1 ∧ s'.busy = true := by
  unfold WriteStream.write at hs
  split_ifs at hs with hwritable
  obtain rfl := Option.some.inj hs
  have hpushed := h.push (.write (data.encode encoding.encoding)) s.writable true nofun
    fun _ => ⟨hwritable, nofun⟩
  obtain ⟨hcounted, hiff⟩ := hpushed.flush hle
  refine ⟨hcounted, hiff.mpr fun hclosing => ?_, ?_⟩
  · have hmem := List.mem_of_mem_head? hclosing.2.2
    exact absurd hmem (hpushed.writable hwritable)
  · apply flush_busy
    show s.queue ++ [_] ≠ []
    simp

theorem Counted.finish (h : s.Counted) (hle : s.closes ≤ 1) :
    s.finish.Counted ∧ (s.finish.closes ≤ 1 ↔ s.Once (.end none)) :=
  (h.push .close false s.drainable nofun nofun).flush hle

theorem Counted.destroy (h : s.Counted) (hle : s.closes ≤ 1) :
    s.destroy.Counted ∧ (s.destroy.closes ≤ 1 ↔ s.Once .destroy) := by
  unfold WriteStream.destroy
  dsimp only
  split
  · rename_i fd hfd
    have htruthy : truthy s.fd = true := by
      rw [hfd]
      rfl
    have hsome : s.fd.isSome = true := by
      rw [hfd]
      rfl
    refine ⟨⟨h.calls, h.opening, h.queue, nofun, ?_, fun _ => ⟨nofun, nofun⟩⟩, ?_⟩
    · intro hnone
      cases hfd.symm.trans hnone
    · show s.closes + 1 ≤ 1 ↔ (truthy s.fd = true → s.Unasked)
      rw [← h.opened hsome]
      constructor
      · intro hone _
        omega
      · intro hzero
        have hcloses := hzero htruthy
        omega
  · rename_i hfd
    refine ⟨⟨h.calls, h.opening, h.queue, nofun, ?_, h.opened⟩, fun _ htrue => ?_, fun _ => hle⟩
    · intro hnone
      cases hfd.symm.trans hnone
    · rw [hfd] at htrue
      cases htrue
  · rename_i hfd
    obtain ⟨hzero, hfinished, -⟩ := h.unopened hfd
    refine ⟨⟨h.calls, h.opening, h.queue, nofun, fun _ => ⟨hzero, hfinished, nofun, nofun⟩, ?_⟩,
      fun _ htrue => ?_, fun _ => hle⟩
    · intro hsome
      have hsome : s.fd.isSome = true := hsome
      rw [hfd] at hsome
      cases hsome
    · rw [hfd] at htrue
      cases htrue

theorem Counted.called (h : s.Counted) (hle : s.closes ≤ 1) {i : ℕ} {op : Op}
    (hop : s.calls[i]? = some op) (r : Option ℕ) :
    Counted (called { s with calls := s.calls.eraseIdx i } op r) ∧
      ((called { s with calls := s.calls.eraseIdx i } op r).closes ≤ 1 ↔ s.Once (.called i r)) := by
  obtain ⟨hi, hget⟩ := List.getElem?_eq_some_iff.mp hop
  have hlength := h.calls
  have hnil : s.calls.eraseIdx i = [] := by
    rw [← List.length_eq_zero_iff, List.length_eraseIdx_of_lt hi]
    split_ifs at hlength
    · omega
    · omega
  have hmem : op ∈ s.calls := List.mem_of_getElem? hop
  rw [hnil]
  cases r with
  | none => exact ⟨⟨Nat.zero_le _, nofun, h.queue, nofun, h.unopened, h.opened⟩,
      fun _ => trivial, fun _ => hle⟩
  | some r =>
    cases op with
    | close =>
      refine ⟨⟨Nat.zero_le _, nofun, h.queue, h.writable, h.unopened, h.opened⟩, fun _ hopen => ?_,
        fun _ => hle⟩
      cases hop.symm.trans hopen
    | write b =>
      refine ⟨⟨Nat.zero_le _, nofun, h.queue, h.writable, h.unopened, h.opened⟩, fun _ hopen => ?_,
        fun _ => hle⟩
      cases hop.symm.trans hopen
    | «open» =>
      obtain ⟨hzero, hfinished, hlisteners⟩ := h.unopened (h.opening hmem)
      refine ⟨⟨Nat.zero_le _, nofun, h.queue, h.writable, nofun, fun _ => ?_⟩, ?_⟩
      · show s.closes + s.openListeners = 0 ↔ s.destroyed = false ∧ s.finished = false
        rw [hzero, Nat.zero_add, hlisteners, hfinished]
        exact ⟨fun hd => ⟨hd, rfl⟩, fun hd => hd.1⟩
      · show s.closes + s.openListeners ≤ 1 ↔ (s.calls[i]? = some .open → s.openListeners ≤ 1)
        rw [hzero, Nat.zero_add]
        exact ⟨fun hone _ => hone, fun hone => hone hop⟩

/-- Exactly when a step leaves it at one call of `fs.close`. -/
theorem Counted.step (h : s.Counted) (hle : s.closes ≤ 1) {a : Action} (ha : s.step a = some s') :
    s'.Counted ∧ (s'.closes ≤ 1 ↔ s.Once a) := by
  cases a with
  | called i r =>
    dsimp only [WriteStream.step] at ha
    split at ha
    · cases ha
    · rename_i op hop
      split_ifs at ha
      obtain rfl := Option.some.inj ha
      exact h.called hle hop r
  | write data encoding =>
    obtain rfl := Option.some.inj ha
    cases hwrite : s.write data encoding with
    | none => exact ⟨h, fun _ => trivial, fun _ => hle⟩
    | some t =>
      obtain ⟨hcounted, hone, -⟩ := h.write hle hwrite
      exact ⟨hcounted, fun _ => trivial, fun _ => hone⟩
  | «end» data =>
    obtain rfl := Option.some.inj ha
    cases data with
    | none => exact h.finish hle
    | some d =>
      dsimp only [WriteStream.end]
      cases hwrite : s.write d.1 d.2 with
      | none => exact ⟨h, fun _ => trivial, fun _ => hle⟩
      | some t =>
        -- the stream is busy with what it wrote, so that the close waits
        obtain ⟨hcounted, hone, hbusy⟩ := h.write hle hwrite
        obtain ⟨hfinish, hiff⟩ := hcounted.finish hone
        refine ⟨hfinish, fun _ => trivial, fun _ => hiff.mpr fun hclosing => ?_⟩
        cases hbusy.symm.trans hclosing.1
  | destroy =>
    obtain rfl := Option.some.inj ha
    exact h.destroy hle
  | ret =>
    dsimp only [WriteStream.step] at ha
    split_ifs at ha
    obtain rfl := Option.some.inj ha
    have hreturned : Counted { s with running := false } :=
      ⟨h.calls, h.opening, h.queue, h.writable, h.unopened, h.opened⟩
    exact hreturned.flush hle

theorem counted_new (fd : Option ℕ) : (new fd).Counted := by
  cases fd with
  | none =>
    exact ⟨Nat.le_refl 1, fun _ => rfl, nofun, fun _ => nofun, fun _ => ⟨rfl, rfl, by decide⟩, nofun⟩
  | some fd =>
    exact ⟨Nat.le_refl 0, nofun, nofun, fun _ => nofun, nofun,
      fun _ => ⟨fun _ => ⟨rfl, rfl⟩, fun _ => rfl⟩⟩

/-- Exactly when a run calls `fs.close` at most once. -/
theorem closes_iff (fd : Option ℕ) (as : List Action) :
    Lib.Along step (fun _ _ s' => s'.closes ≤ 1) (new fd) as ↔
      Lib.Along step (fun s a _ => s.Once a) (new fd) as := by
  have hzero : (new fd).closes ≤ 1 := by
    cases fd with
    | none => exact Nat.zero_le 1
    | some fd => exact Nat.zero_le 1
  exact Lib.along_iff_while (J := fun s => s.Counted ∧ s.closes ≤ 1) ⟨counted_new fd, hzero⟩
    (fun _ _ _ hs ha => (hs.1.step hs.2 ha).2)
    (fun _ _ _ hs honce ha => ⟨(hs.1.step hs.2 ha).1, (hs.1.step hs.2 ha).2.mpr honce⟩) as

end WriteStream

/-- Exactly which runs of a stream call `fs.close` at most once. -/
theorem closes_le_one_iff {δ : Type} (decode : δ → Bytes → δ × JSString) (fd : Option ℕ) :
    (∀ (bufferSize : ℕ) (range : Option Range) (decoder : Option δ) (as : List ReadStream.Action),
      Lib.Along (ReadStream.step decode) (fun _ _ s' => s'.closes ≤ 1)
          (.new fd bufferSize range decoder) as ↔
        Lib.Along (ReadStream.step decode) (fun s a _ => s.Once a)
          (.new fd bufferSize range decoder) as) ∧
    ∀ as : List WriteStream.Action,
      Lib.Along WriteStream.step (fun _ _ s' => s'.closes ≤ 1) (.new fd) as ↔
        Lib.Along WriteStream.step (fun s a _ => s.Once a) (.new fd) as :=
  ⟨fun bufferSize range decoder as => ReadStream.closes_iff fd bufferSize range decoder as,
    fun as => WriteStream.closes_iff fd as⟩

/-- `destroy` in a listener of `'end'` is followed by the stream's own, and `destroy` after `end` closes
a file that is closed. -/
theorem closes_twice :
    (¬ ∀ s : ReadStream Unit, Lib.Reach (ReadStream.step fun _ _ => ((), [])) (fun _ _ => True)
      (.new none 65536 none none) s → s.closes ≤ 1) ∧
    ¬ ∀ s : WriteStream, Lib.Reach WriteStream.step (fun _ _ => True) (.new none) s →
      s.closes ≤ 1 := by
  constructor
  · intro h
    have hrun : Lib.run (ReadStream.step fun (_ : Unit) _ => ((), [])) (.new none 65536 none none)
        [.opened (some 3), .ret, .completed 0 (some []), .destroy, .ret] = some _ := rfl
    have hone : 2 ≤ 1 := h _ (Lib.reach_of_run hrun fun _ _ => trivial)
    omega
  · intro h
    have hrun : Lib.run WriteStream.step (.new none)
        [.called 0 (some 3), .ret, .end none, .destroy] = some _ := rfl
    have hone : 2 ≤ 1 := h _ (Lib.reach_of_run hrun fun _ _ => trivial)
    omega

end NodeJS.Fs
