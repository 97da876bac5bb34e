import NodeJS.Buffer.Bounds
import NodeJS.Fs.Chunks

/-! At which position of a file `fs.read`, `fs.write` and their synchronous forms read and write. -/
namespace NodeJS.Fs

/-- A system call: a range of the buffer, and the position in the file if it is not made at that of
the descriptor. -/
structure Transfer where
  fd : ℤ
  offset : ℕ
  length : ℕ
  position : Option ℤ

inductive TransferError
  | badArgs
  | range (e : RangeError)

/-- A buffer with an offset and a length, or the legacy string interface, which makes a buffer of
its own. -/
inductive Place
  | buffer (bufferLength : ℕ) (offset length : ℤ)
  | legacy (length : ℕ)

namespace Place

def bufferLength : Place → ℕ
  | .buffer bufferLength _ _ => bufferLength
  | .legacy length => length

def offset : Place → ℤ
  | .buffer _ offset _ => offset
  | .legacy _ => 0

def length : Place → ℤ
  | .buffer _ _ length => length
  | .legacy length => length

end Place

namespace Calls

/-- `GET_OFFSET`, where `none` is an argument that is no number. -/
def getOffset (position : Option ℤ) : ℤ := (position.filter (IsInt32 ·)).getD (-1)

/-- `pos < 0 ? read(fd, buf, len) : pread(fd, buf, len, pos)` -/
def sync (pos : ℤ) : Option ℤ := if pos < 0 then none else some pos

/-- `req->offs >= 0 ? pread(..) : read(..)` of libeio. -/
def async (offs : ℤ) : Option ℤ := if offs ≥ 0 then some offs else none

/-- A binding of `node_file.cc` with its check. -/
def transfer (check : ℕ → ℤ → ℤ → Except RangeError (ℕ × ℕ)) (call : ℤ → Option ℤ) (fd : ℤ)
    (place : Place) (position : Option ℤ) : Except TransferError (Option Transfer) :=
  if IsInt32 fd then
    match check place.bufferLength place.offset place.length with
    | .error e => .error (.range e)
    | .ok (off, len) => .ok (some ⟨fd, off, len, call (getOffset position)⟩)
  else .error .badArgs

def read := transfer Binding.fsRead async

def readSync := transfer Binding.fsRead sync

/-- Nothing is written if the length is 0. -/
def write (fd : ℤ) (place : Place) (position : Option ℤ) :
    Except TransferError (Option Transfer) :=
  if place.length = 0 then .ok none else transfer Binding.fsWrite async fd place position

def writeSync (fd : ℤ) (place : Place) (position : Option ℤ) :
    Except TransferError (Option Transfer) :=
  if place.length = 0 then .ok none else transfer Binding.fsWrite sync fd place position

def functions : List (ℤ → Place → Option ℤ → Except TransferError (Option Transfer)) :=
  [read, readSync, write, writeSync]

/-- Both forms take a value below 0 for no position. -/
theorem async_eq_sync : async = sync := by
  funext pos
  unfold async sync
  split_ifs <;> first | rfl | omega

theorem sync_none : sync (getOffset none) = none := rfl

theorem sync_getOffset (p : ℕ) : sync (getOffset (some p)) = some (p : ℤ) ↔ p < 2 ^ 31 := by
  have hint : IsInt32 p ↔ p < 2 ^ 31 := by
    unfold IsInt32
    omega
  unfold getOffset
  by_cases h : p < 2 ^ 31
  · rw [Option.filter_some_pos (by simpa using hint.mpr h), Option.getD_some, sync,
      if_neg (by omega)]
    exact iff_of_true rfl h
  · rw [Option.filter_some_neg (by simpa using mt hint.mp h), Option.getD_none, sync,
      if_pos (by decide)]
    exact iff_of_false nofun h

/-- A position may be left out. -/
theorem async_getOffset (position : Option ℕ) :
    async (getOffset (position.map (↑))) = (Fs.getOffset position).map (↑) := by
  cases position with
  | none => rfl
  | some p =>
    rw [async_eq_sync, Fs.getOffset]
    by_cases h : p < 2 ^ 31
    · rw [Option.filter_some_pos (by simpa using h)]
      exact (sync_getOffset p).mpr h
    · have hint : ¬ IsInt32 p := by
        unfold IsInt32
        omega
      rw [Option.filter_some_neg (by simpa using h), Option.map_some, getOffset,
        Option.filter_some_neg (by simpa using hint)]
      rfl

/-- A range inside the buffer is let pass. -/
theorem transfer_ok {check : ℕ → ℤ → ℤ → Except RangeError (ℕ × ℕ)} (hcheck : check ∈ bindings)
    (call : ℤ → Option ℤ) {fd n offset length : ℕ} (hfd : fd < 2 ^ 31) (hn : n < 2 ^ 31)
    (hoffset : offset < n) (hlength : offset + length ≤ n) (position : Option ℤ) :
    transfer check call fd (.buffer n offset length) position =
      .ok (some ⟨fd, offset, length, call (getOffset position)⟩) := by
  have hint : ∀ x : ℕ, x < 2 ^ 31 → IsInt32 x := by
    intro x hx
    unfold IsInt32
    omega
  have hok : checkRange n offset length = .ok (offset, length) := by
    rw [checkRange_ok_iff (by omega) (hint offset (by omega)) (hint length (by omega))]
    omega
  unfold transfer Place.bufferLength Place.offset Place.length
  dsimp only
  rw [if_pos (hint fd hfd), eq_checkRange check hcheck, hok]

theorem readSync_ok {fd n : ℕ} (hfd : fd < 2 ^ 31) (hpos : 0 < n) (hn : n < 2 ^ 31) :
    readSync fd (.buffer n 0 n) none = .ok (some ⟨fd, 0, n, none⟩) := by
  have h : transfer Binding.fsRead sync fd (.buffer n (0 : ℕ) n) none =
      .ok (some ⟨fd, 0, n, sync (getOffset none)⟩) :=
    transfer_ok List.mem_cons_self sync hfd hn hpos (by omega) none
  rw [sync_none] at h
  exact h

/-- What is left of a buffer is written. -/
theorem transfer_write {call : ℤ → Option ℤ} (hcall : call = sync) {fd n offset length : ℕ}
    (hfd : fd < 2 ^ 31) (hn : n < 2 ^ 31) (hpos : 0 < length) (h : offset + length = n) :
    (if (Place.buffer n offset length).length = 0 then .ok none
      else transfer Binding.fsWrite call fd (.buffer n offset length) (some offset)) =
      .ok (some ⟨fd, offset, length, some offset⟩) := by
  have hmem : Binding.fsWrite ∈ bindings := List.mem_cons_of_mem _ List.mem_cons_self
  have htransfer := transfer_ok hmem call hfd hn (by omega) (by omega : offset + length ≤ n)
    (some offset)
  rw [hcall, (sync_getOffset offset).mpr (by omega)] at htransfer
  have hne : (Place.buffer n offset length).length ≠ 0 := by
    show (length : ℤ) ≠ 0
    omega
  rw [if_neg hne, hcall]
  exact htransfer

theorem write_ok {fd n offset length : ℕ} (hfd : fd < 2 ^ 31) (hn : n < 2 ^ 31)
    (hpos : 0 < length) (h : offset + length = n) :
    write fd (.buffer n offset length) (some offset) =
      .ok (some ⟨fd, offset, length, some offset⟩) := transfer_write async_eq_sync hfd hn hpos h

theorem writeSync_ok {fd n offset : ℕ} (hfd : fd < 2 ^ 31) (hn : n < 2 ^ 31) (h : offset < n) :
    writeSync fd (.buffer n offset (n - offset : ℕ)) (some offset) =
      .ok (some ⟨fd, offset, n - offset, some offset⟩) :=
  transfer_write rfl hfd hn (Nat.sub_pos_of_lt h) (by omega)

theorem write_empty (fd : ℤ) (n : ℕ) (offset : ℤ) (position : Option ℤ) :
    write fd (.buffer n offset 0) position = .ok none := if_pos rfl

/-- What a call that does not throw passes on. -/
theorem transfer_position {check : ℕ → ℤ → ℤ → Except RangeError (ℕ × ℕ)} {call : ℤ → Option ℤ}
    {fd : ℤ} {place : Place} {position : Option ℤ} {t : Transfer}
    (h : transfer check call fd place position = .ok (some t)) :
    t.position = call (getOffset position) := by
  unfold transfer at h
  split_ifs at h
  split at h
  · cases h
  · cases h
    rfl

theorem function_position {f : ℤ → Place → Option ℤ → Except TransferError (Option Transfer)}
    (hf : f ∈ functions) {fd : ℤ} {place : Place} {position : Option ℤ} {t : Transfer}
    (h : f fd place position = .ok (some t)) : t.position = sync (getOffset position) := by
  have hwrite : ∀ call, (if place.length = 0 then .ok none
      else transfer Binding.fsWrite call fd place position) = .ok (some t) →
        t.position = call (getOffset position) := by
    intro call h
    split_ifs at h with hlength
    · cases h
    · exact transfer_position h
  simp only [functions, List.mem_cons, List.not_mem_nil, or_false] at hf
  rcases hf with rfl | rfl | rfl | rfl
  · rw [← async_eq_sync]
    exact transfer_position h
  · exact transfer_position h
  · rw [← async_eq_sync]
    exact hwrite async h
  · exact hwrite sync h

end Calls

/-! ### The positions of a stream -/

namespace ReadStream
variable {δ : Type} {decode : δ → Bytes → δ × JSString} {range : Range} {s s' : ReadStream δ}

/-- Every read is made for a position, at `start` or behind it. -/
structure Placed (range : Range) (s : ReadStream δ) : Prop where
  next : ∃ p, s.readPos = some p ∧ range.start ≤ p
  reads : ∀ r ∈ s.reads, ∃ p, r.position = some p ∧ range.start ≤ p

theorem placed_new (fd : Option ℕ) (bufferSize : ℕ) (decoder : Option δ) :
    (new fd bufferSize (some range) decoder).Placed range where
  next := ⟨range.start, rfl, Nat.le_refl _⟩
  reads := by
    intro r hr
    cases hr

/-- What the next read depends on is as before, and no read is new. -/
structure SameReads (s t : ReadStream δ) : Prop where
  start : t.start = s.start
  stop : t.stop = s.stop
  firstRead : t.firstRead = s.firstRead
  pos : t.pos = s.pos
  bufferSize : t.bufferSize = s.bufferSize
  pool : t.pool = s.pool
  reads : t.reads = s.reads

theorem SameReads.refl (s : ReadStream δ) : SameReads s s := ⟨rfl, rfl, rfl, rfl, rfl, rfl, rfl⟩

theorem SameReads.trans {u : ReadStream δ} (h : SameReads s s') (h' : SameReads s' u) :
    SameReads s u :=
  ⟨h'.start.trans h.start, h'.stop.trans h.stop, h'.firstRead.trans h.firstRead,
    h'.pos.trans h.pos, h'.bufferSize.trans h.bufferSize, h'.pool.trans h.pool,
    h'.reads.trans h.reads⟩

variable (decode) in
theorem sameReads_emitData (s : ReadStream δ) (b : Bytes) :
    SameReads s (s.emitData decode b).1 := by
  unfold emitData
  dsimp only
  split
  · exact ⟨rfl, rfl, rfl, rfl, rfl, rfl, rfl⟩
  · split_ifs
    · exact ⟨rfl, rfl, rfl, rfl, rfl, rfl, rfl⟩
    · exact ⟨rfl, rfl, rfl, rfl, rfl, rfl, rfl⟩

theorem sameReads_destroy (s : ReadStream δ) : SameReads s s.destroy := by
  unfold destroy
  dsimp only
  split
  · exact ⟨rfl, rfl, rfl, rfl, rfl, rfl, rfl⟩
  · exact ⟨rfl, rfl, rfl, rfl, rfl, rfl, rfl⟩

/-- A step issues at most one read, and that at its end. -/
def Issues (s s' : ReadStream δ) : Prop := ∃ t, SameReads s t ∧ (s' = t ∨ s' = t.read)

theorem SameReads.silent (h : SameReads s s') : Issues s s' := ⟨s', h, Or.inl rfl⟩

theorem SameReads.issues {u : ReadStream δ} (h : SameReads s s') (h' : Issues s' u) :
    Issues s u := by
  obtain ⟨t, hsame, ht⟩ := h'
  exact ⟨t, h.trans hsame, ht⟩

theorem issues_leave (s : ReadStream δ) (f : Frame) : Issues s (s.leave f) := by
  cases f with
  | read => exact ⟨s, .refl s, Or.inr rfl⟩
  | opened => exact ⟨s, .refl s, Or.inr rfl⟩
  | resumed =>
    have hcleared : SameReads s { s with buffer := none } :=
      ⟨rfl, rfl, rfl, rfl, rfl, rfl, rfl⟩
    unfold leave
    dsimp only
    split_ifs
    · exact hcleared.silent
    · exact ⟨_, hcleared, Or.inr rfl⟩
  | ended => exact (sameReads_destroy s).silent
  | failed => exact SameReads.silent ⟨rfl, rfl, rfl, rfl, rfl, rfl, rfl⟩

variable (decode) in
theorem issues_emitThen (s : ReadStream δ) (b : Bytes) (f : Frame) :
    Issues s (s.emitThen decode b f) := by
  have hsame := sameReads_emitData decode s b
  unfold emitThen
  dsimp only
  split_ifs
  · exact hsame.issues (SameReads.silent ⟨rfl, rfl, rfl, rfl, rfl, rfl, rfl⟩)
  · exact hsame.issues (issues_leave _ f)

variable (decode) in
theorem issues_resume (s : ReadStream δ) : Issues s (s.resume decode) := by
  have hflow : SameReads s { s with paused := false } := ⟨rfl, rfl, rfl, rfl, rfl, rfl, rfl⟩
  unfold resume
  dsimp only
  split
  · exact hflow.issues (issues_emitThen decode _ _ _)
  · split_ifs
    · exact hflow.silent
    · exact ⟨_, hflow, Or.inr rfl⟩

variable (decode) in
theorem issues_afterRead (s : ReadStream δ) (r : Option Bytes) :
    Issues s (s.afterRead decode r) := by
  unfold afterRead
  split
  · exact SameReads.silent ⟨rfl, rfl, rfl, rfl, rfl, rfl, rfl⟩
  · exact SameReads.silent ⟨rfl, rfl, rfl, rfl, rfl, rfl, rfl⟩
  · rename_i b _
    have htook : SameReads s { s with reading := false, received := s.received ++ [b] } :=
      ⟨rfl, rfl, rfl, rfl, rfl, rfl, rfl⟩
    dsimp only
    split_ifs
    · exact SameReads.silent ⟨rfl, rfl, rfl, rfl, rfl, rfl, rfl⟩
    · exact htook.silent
    · exact htook.issues (issues_emitThen decode _ _ _)

/-- Without the read that returns, or with the pool as other streams have left it. -/
def before (s : ReadStream δ) : Action → ReadStream δ
  | .completed i _ => { s with reads := s.reads.eraseIdx i }
  | .pool used => { s with pool := used }
  | _ => s

theorem issues_step {a : Action} (ha : s.step decode a = some s') : Issues (s.before a) s' := by
  cases a with
  | opened r =>
    dsimp only [step] at ha
    split_ifs at ha
    obtain rfl := Option.some.inj ha
    cases r with
    | none => exact SameReads.silent ⟨rfl, rfl, rfl, rfl, rfl, rfl, rfl⟩
    | some fd => exact SameReads.silent ⟨rfl, rfl, rfl, rfl, rfl, rfl, rfl⟩
  | completed i r =>
    dsimp only [step] at ha
    split at ha
    · cases ha
    · split_ifs at ha
      obtain rfl := Option.some.inj ha
      exact issues_afterRead decode _ r
  | pause =>
    obtain rfl := Option.some.inj ha
    exact SameReads.silent ⟨rfl, rfl, rfl, rfl, rfl, rfl, rfl⟩
  | resume =>
    obtain rfl := Option.some.inj ha
    exact issues_resume decode s
  | destroy =>
    obtain rfl := Option.some.inj ha
    exact (sameReads_destroy s).silent
  | ret =>
    dsimp only [step] at ha
    split at ha
    · cases ha
    · rename_i f stack _
      obtain rfl := Option.some.inj ha
      have hpopped : SameReads s { s with stack := stack } := ⟨rfl, rfl, rfl, rfl, rfl, rfl, rfl⟩
      exact hpopped.issues (issues_leave _ f)
  | pool used =>
    obtain rfl := Option.some.inj ha
    exact SameReads.silent ⟨rfl, rfl, rfl, rfl, rfl, rfl, rfl⟩

theorem SameReads.placed (h : SameReads s s') (hs : s.Placed range) : s'.Placed range := by
  obtain ⟨hnext, hreads⟩ := hs
  refine ⟨?_, fun r hr => hreads r (h.reads ▸ hr)⟩
  unfold readPos at hnext ⊢
  rw [h.start, h.firstRead, h.pos]
  exact hnext

theorem Placed.read (h : s.Placed range) : s.read.Placed range := by
  obtain ⟨⟨p, hp, hle⟩, hreads⟩ := h
  rcases read_eq s with heq | ⟨-, -, -, heq⟩
  · rw [heq]
    exact ⟨⟨p, hp, hle⟩, hreads⟩
  · rw [heq]
    constructor
    · refine ⟨p + s.toRead, ?_, by omega⟩
      rw [hp]
      unfold readPos
      dsimp only
      rw [if_neg (by cases s.start <;> simp)]
      rfl
    · intro r hr
      rcases List.mem_append.mp hr with hr | hr
      · exact hreads r hr
      · obtain rfl := List.mem_singleton.mp hr
        exact ⟨p, hp, hle⟩

theorem Placed.before (h : s.Placed range) (a : Action) : (s.before a).Placed range := by
  cases a with
  | completed i r =>
    exact ⟨h.next, fun r hr => h.reads r ((List.eraseIdx_sublist _ _).subset hr)⟩
  | pool used => exact ⟨h.next, h.reads⟩
  | opened r => exact h
  | pause => exact h
  | resume => exact h
  | destroy => exact h
  | ret => exact h

theorem Placed.step {a : Action} (h : s.Placed range) (ha : s.step decode a = some s') :
    s'.Placed range := by
  obtain ⟨t, hsame, rfl | rfl⟩ := issues_step ha
  · exact hsame.placed (h.before a)
  · exact (hsame.placed (h.before a)).read

end ReadStream

/-- A call is made for the position that was passed if and only if that is a 32-bit integer, and so
is every read of a stream with a `start`. -/
theorem position_iff {δ : Type} {decode : δ → Bytes → δ × JSString} {fd' : Option ℕ}
    {bufferSize : ℕ} {range : Range} {decoder : Option δ} {s : ReadStream δ}
    (hreach : Lib.Reach (ReadStream.step decode) (fun _ _ => True)
      (.new fd' bufferSize (some range) decoder) s) :
    (∀ f ∈ Calls.functions, ∀ fd place (p : ℕ) t, f fd place (some p) = .ok (some t) →
      (t.position = some (p : ℤ) ↔ p < 2 ^ 31)) ∧
    ∀ r ∈ s.reads, ∃ p, r.position = some p ∧ range.start ≤ p ∧
      ∀ fd (used : ℕ) t, Calls.read fd (.buffer kPoolSize used r.length) (r.position.map (↑)) =
        .ok (some t) → t.position = (getOffset r.position).map (↑) ∧
          (t.position = some (p : ℤ) ↔ p < 2 ^ 31) := by
  have hcalls : ∀ f ∈ Calls.functions, ∀ fd place (p : ℕ) t, f fd place (some p) = .ok (some t) →
      (t.position = some (p : ℤ) ↔ p < 2 ^ 31) := by
    intro f hf fd place p t ht
    rw [Calls.function_position hf ht]
    exact Calls.sync_getOffset p
  refine ⟨hcalls, fun r hr => ?_⟩
  have hplaced : s.Placed range := hreach.invariant (ReadStream.placed_new fd' bufferSize decoder)
    fun _ _ _ hs _ ha => hs.step ha
  obtain ⟨p, hp, hle⟩ := hplaced.reads r hr
  refine ⟨p, hp, hle, fun fd used t ht => ⟨?_, ?_⟩⟩
  · rw [Calls.function_position List.mem_cons_self ht, ← Calls.async_getOffset,
      Calls.async_eq_sync]
  · rw [hp] at ht
    exact hcalls Calls.read List.mem_cons_self fd _ p t ht

theorem position_iff_start : ∃ s : ReadStream Empty,
    Lib.run (ReadStream.step nofun) (.new none 65536 (some ⟨2 ^ 31, none, nofun⟩) none)
      [.opened (some 3), .ret] = some s ∧
    ∀ r ∈ s.reads, ∃ p, r.position = some p ∧ 2 ^ 31 ≤ p ∧
      ∀ fd (used : ℕ) t, Calls.read fd (.buffer kPoolSize used r.length) (r.position.map (↑)) =
        .ok (some t) → t.position = (getOffset r.position).map (↑) ∧
          (t.position = some (p : ℤ) ↔ p < 2 ^ 31) := by
  obtain ⟨s, hs⟩ : ∃ s : ReadStream Empty,
      Lib.run (ReadStream.step nofun) (.new none 65536 (some ⟨2 ^ 31, none, nofun⟩) none)
        [.opened (some 3), .ret] = some s := ⟨_, rfl⟩
  exact ⟨s, hs, (position_iff (Lib.reach_of_run hs fun _ _ => trivial)).2⟩

/-- At 2^31 a file is read where the descriptor is at. -/
theorem position_ignored : ¬ ∀ f ∈ Calls.functions, ∀ fd place (p : ℕ) t, p < 2 ^ 53 →
    f fd place (some p) = .ok (some t) → t.position = some (p : ℤ) := by
  intro h
  have hread : Calls.readSync 3 (.buffer 10 0 10) (some (2 ^ 31 : ℕ)) =
      .ok (some ⟨3, 0, 10, none⟩) := rfl
  have hmem : Calls.readSync ∈ Calls.functions := List.mem_cons_of_mem _ List.mem_cons_self
  cases h Calls.readSync hmem 3 _ (2 ^ 31) _ (by decide) hread

end NodeJS.Fs
