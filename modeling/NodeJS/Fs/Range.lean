import NodeJS.Fs.ReadStream

/-! A `ReadStream` with `start` and `end` on a file, and which runs of it emit the bytes between the
two. -/
namespace NodeJS.Fs

def Range.bytes (range : Range) (file : Bytes) : Bytes :=
  match range.stop with
  | none => file.drop range.start
  | some e => (file.drop range.start).take (e + 1 - range.start)

/-- A stream without an encoding, and the offset of its descriptor. -/
structure Reader where
  stream : ReadStream Empty
  offset : ℕ

/-- The file is opened, `read(2)` returns with `n` bytes, the listeners return, or other streams
use the pool. -/
inductive Reader.Turn
  | opened (fd : ℕ)
  | read (n : ℕ)
  | ret
  | pool (used : Option ℕ)

def Reader.Turn.isPool : Turn → Bool
  | .pool _ => true
  | _ => false

namespace Reader

def new (bufferSize : ℕ) (range : Range) : Reader :=
  ⟨.new none bufferSize (some range) none, 0⟩

def act (s : Reader) (a : ReadStream.Action) : Option Reader :=
  (s.stream.step nofun a).map fun stream => { s with stream := stream }

/-- Where in the file a read takes its bytes from. -/
def place (s : Reader) (r : Read) : ℕ := (getOffset r.position).getD s.offset

/-- `read(2)` and `pread(2)` may return fewer bytes than were asked for, but none only at the end of
the file or if none were asked for. -/
def step (file : Bytes) (s : Reader) : Turn → Option Reader
  | .opened fd => s.act (.opened (some fd))
  | .read n =>
    match s.stream.reads with
    | [] => none
    | r :: _ =>
      let count := min r.length (file.length - s.place r)
      if n ≤ count ∧ (0 < count → 0 < n) then
        let s' := { s with offset := if (getOffset r.position).isSome then s.offset else s.offset + n }
        s'.act (.completed 0 (some ((file.drop (s.place r)).take n)))
      else none
  | .ret => s.act .ret
  | .pool used => s.act (.pool used)

/-- The read is made at the position that was asked for and returns all there is. -/
def Full (file : Bytes) (s : Reader) : Turn → Reader → Prop
  | .read n, _ => ∀ r ∈ s.stream.reads, ∀ p ∈ r.position,
      n = min r.length (file.length - p) ∧ (p < 0x80000000 ∨ n = 0)
  | _, _ => True

/-- The position of the read is a 32-bit integer. -/
def Below (s : Reader) : Turn → Reader → Prop
  | .read _, _ => ∀ r ∈ s.stream.reads, ∀ p ∈ r.position, p < 0x80000000
  | _, _ => True

/-- The `'data'` events carry these bytes. -/
def Emits (s : Reader) (bytes : Bytes) : Prop :=
  ∃ chunks : List Bytes, s.stream.data = chunks.map .buffer ∧ chunks.flatten = bytes

end Reader

/-! ### The phases of a stream that is not paused -/

namespace ReadStream

/-- The position of the read that waits, or of the next one. -/
def next {δ : Type} (s : ReadStream δ) : ℕ :=
  match s.reads with
  | [] => s.readPos.getD 0
  | r :: _ => r.position.getD 0

variable (bufferSize : ℕ) (range : Range)

/-- Nothing is asked for at this position. -/
def Spent (p : ℕ) : Prop := bufferSize = 0 ∨ ∃ e ∈ range.stop, p = e + 1

inductive Phase (s : ReadStream Empty) : Prop
  | opening (reads : s.reads = []) (reading : s.reading = false) (readable : s.readable = true)
      (stack : s.stack = []) (opening : s.opening = true) (ended : s.ended = false)
  | between (f : Frame) (reads : s.reads = []) (reading : s.reading = false)
      (readable : s.readable = true) (frame : f = .opened ∨ f = .read) (stack : s.stack = [f])
      (opening : s.opening = false) (ended : s.ended = false)
  | reading (l : ℕ) (reads : s.reads = [⟨l, some s.next⟩]) (readPos : s.readPos = some (s.next + l))
      (readable : s.readable = true) (stack : s.stack = []) (opening : s.opening = false)
      (ended : s.ended = false) (stop : ∀ e ∈ range.stop, s.next + l ≤ e + 1)
      (spent : l = 0 → Spent bufferSize range s.next) (zero : bufferSize = 0 → l = 0)
  | ended (reads : s.reads = []) (stack : s.stack = [.ended] ∨ s.stack = [])
      (opening : s.opening = false) (ended : s.ended = true)

/-- What holds between any two steps of the code. -/
structure Steady (s : ReadStream Empty) : Prop where
  size : s.bufferSize = bufferSize
  start : s.start = some range.start
  stop : s.stop = range.stop
  paused : s.paused = false
  decoder : s.decoder = none
  data : s.data = s.given.map .buffer
  start_le : range.start ≤ s.next
  le_stop : ∀ e ∈ range.stop, s.next ≤ e + 1
  zero : bufferSize = 0 → s.next = range.start
  next : s.reads = [] → s.readPos = some s.next

structure Flowing (s : ReadStream Empty) : Prop extends Steady bufferSize range s where
  phase : s.Phase bufferSize range

variable {bufferSize range} {s : ReadStream Empty}

theorem next_of_nil {p : ℕ} (hreads : s.reads = []) (hpos : s.readPos = some p) : s.next = p := by
  unfold next
  rw [hreads, hpos]
  rfl

theorem flowing_new : Flowing bufferSize range (new none bufferSize (some range) none) where
  size := rfl
  start := rfl
  stop := rfl
  paused := rfl
  decoder := rfl
  data := rfl
  start_le := Nat.le_refl _
  le_stop e he := Nat.le_succ_of_le (range.start_le e he)
  zero _ := rfl
  next _ := rfl
  phase := .opening rfl rfl rfl rfl rfl rfl

/-- How much is asked for at a position within the range. -/
theorem Steady.toRead_spec (h : Steady bufferSize range s) (hreads : s.reads = []) :
    (∀ e ∈ range.stop, s.next + s.toRead ≤ e + 1) ∧
      (s.toRead = 0 → Spent bufferSize range s.next) ∧ (bufferSize = 0 → s.toRead = 0) := by
  have hroom := poolUsed_lt s
  unfold toRead
  rw [h.next hreads, h.stop, h.size]
  cases hstop : range.stop with
  | none =>
    dsimp only
    refine ⟨by simp, fun hzero => Or.inl ?_, fun hzero => ?_⟩
    · omega
    · omega
  | some e =>
    have hle := h.le_stop e hstop
    dsimp only
    refine ⟨fun e' he' => ?_, fun hzero => ?_, fun hzero => ?_⟩
    · obtain rfl : e = e' := Option.some.inj he'
      omega
    · by_cases hsize : bufferSize = 0
      · exact Or.inl hsize
      · exact Or.inr ⟨e, hstop, by omega⟩
    · omega

/-- The next read is issued. -/
theorem Steady.read (h : Steady bufferSize range s) (hreads : s.reads = [])
    (hreading : s.reading = false) (hreadable : s.readable = true) (hstack : s.stack = [])
    (hopening : s.opening = false) (hended : s.ended = false) :
    Flowing bufferSize range s.read ∧ s.read.next = s.next ∧ s.read.given = s.given ∧
      s.read.ended = false ∧ s.read.opening = false ∧ s.read.stack = [] := by
  obtain ⟨hstop, hspent, hzero⟩ := h.toRead_spec hreads
  have hnext := h.next hreads
  have heq : s.read = { s with
      reading := true
      pool := some (s.poolUsed + s.toRead)
      firstRead := false
      pos := some (s.next + s.toRead)
      reads := [⟨s.toRead, some s.next⟩] } := by
    unfold ReadStream.read
    rw [hreadable, h.paused, hreading, hnext, hreads, h.start]
    simp
  rw [heq]
  have hpos : ∀ pos, readPos { s with
      reading := true
      pool := some (s.poolUsed + s.toRead)
      firstRead := false
      pos := pos
      reads := [⟨s.toRead, some s.next⟩] } = pos := by
    intro pos
    unfold readPos
    simp
  exact ⟨⟨⟨h.size, h.start, h.stop, h.paused, h.decoder, h.data, h.start_le, h.le_stop, h.zero, nofun⟩,
    .reading s.toRead rfl (hpos _) hreadable hstack hopening hended hstop hspent hzero⟩, rfl, rfl,
    hended, hopening, hstack⟩

end ReadStream

namespace Reader
variable {file : Bytes} {bufferSize : ℕ} {range : Range} {s s' : Reader} {t : Turn}

/-- How many turns are left at most, not counting those of other streams. -/
def work (file : Bytes) (s : Reader) : ℕ :=
  if s.stream.ended then s.stream.stack.length
  else 2 * (file.length - s.stream.next) + 2 * (file.length - s.offset) +
    if s.stream.opening then 4 else if s.stream.stack.isEmpty then 2 else 3

/-- What a turn does to the position and to the bytes that were emitted. -/
inductive Effect (file : Bytes) (bufferSize : ℕ) (range : Range) (s s' : Reader) : Turn → Prop
  | quiet (t : Turn) (turn : ∀ n, t ≠ .read n) (next : s'.stream.next = s.stream.next)
      (given : s'.stream.given = s.stream.given) (ended : s'.stream.ended = s.stream.ended) :
      Effect file bufferSize range s s' t
  | read (n l : ℕ) (reads : s.stream.reads = [⟨l, some s.stream.next⟩])
      (count : n ≤ min l (file.length - s.place ⟨l, some s.stream.next⟩))
      (next : s'.stream.next = s.stream.next + l)
      (given : s'.stream.given.flatten =
        s.stream.given.flatten ++ (file.drop (s.place ⟨l, some s.stream.next⟩)).take n)
      (before : s.stream.ended = false) (ended : s'.stream.ended = true → n = 0)
      (spent : l = 0 → ReadStream.Spent bufferSize range s.stream.next) :
      Effect file bufferSize range s s' (.read n)

structure Turned (file : Bytes) (bufferSize : ℕ) (range : Range) (s s' : Reader) (t : Turn) :
    Prop where
  flowing : s'.stream.Flowing bufferSize range
  effect : Effect file bufferSize range s s' t
  work : (if !t.isPool then 1 else 0) + s'.work file ≤ s.work file

theorem act_eq {a : ReadStream.Action} (hs : s.act a = some s') :
    s.stream.step nofun a = some s'.stream ∧ s'.offset = s.offset := by
  obtain ⟨stream, hstream, rfl⟩ := Option.map_eq_some_iff.mp hs
  exact ⟨hstream, rfl⟩

theorem turned_pool (h : s.stream.Flowing bufferSize range) {used : Option ℕ}
    (hs : s.step file (.pool used) = some s') : Turned file bufferSize range s s' (.pool used) := by
  obtain rfl := Option.some.inj hs
  refine ⟨⟨⟨h.size, h.start, h.stop, h.paused, h.decoder, h.data, h.start_le, h.le_stop, h.zero,
    h.next⟩, ?_⟩, .quiet _ nofun rfl rfl rfl, Nat.le_of_eq (Nat.zero_add _)⟩
  cases h.phase with
  | opening h₁ h₂ h₃ h₄ h₅ h₆ => exact .opening h₁ h₂ h₃ h₄ h₅ h₆
  | between f h₁ h₂ h₃ h₄ h₅ h₆ h₇ => exact .between f h₁ h₂ h₃ h₄ h₅ h₆ h₇
  | reading l h₁ h₂ h₃ h₄ h₅ h₆ h₇ h₈ h₉ => exact .reading l h₁ h₂ h₃ h₄ h₅ h₆ h₇ h₈ h₉
  | ended h₁ h₂ h₃ h₄ => exact .ended h₁ h₂ h₃ h₄

theorem turned_opened (h : s.stream.Flowing bufferSize range) {fd : ℕ}
    (hs : s.step file (.opened fd) = some s') : Turned file bufferSize range s s' (.opened fd) := by
  obtain ⟨hstream, hoffset⟩ := act_eq hs
  dsimp only [ReadStream.step] at hstream
  split_ifs at hstream with hguard
  obtain ⟨hopen, -⟩ := Bool.and_eq_true_iff.mp hguard
  cases h.phase with
  | opening hreads hreading hreadable hstack hopening hended =>
    have heq : s'.stream = s.stream.afterOpen (some fd) := (Option.some.inj hstream).symm
    refine ⟨?_, .quiet _ nofun ?_ ?_ ?_, ?_⟩
    · rw [heq]
      exact ⟨⟨h.size, h.start, h.stop, h.paused, h.decoder, h.data, h.start_le, h.le_stop, h.zero,
        h.next⟩, .between .opened hreads hreading hreadable (Or.inl rfl) rfl rfl hended⟩
    · rw [heq]
      rfl
    · rw [heq]
      rfl
    · rw [heq]
      rfl
    · have hnext : (s.stream.afterOpen (some fd)).next = s.stream.next := rfl
      have hafter : (s.stream.afterOpen (some fd)).ended = s.stream.ended := rfl
      unfold work
      rw [heq, hnext, hoffset, hafter, hended, hopening]
      show 1 + (_ + 3) ≤ _ + 4
      omega
  | between _ _ _ _ _ _ hopening => cases hopening.symm.trans hopen
  | reading _ _ _ _ _ hopening => cases hopening.symm.trans hopen
  | ended _ _ hopening => cases hopening.symm.trans hopen

/-- The stream destroys itself after `'end'`. -/
theorem flowing_destroy {s : ReadStream Empty} (h : s.Steady bufferSize range)
    (hreads : s.reads = []) (hopening : s.opening = false) (hended : s.ended = true)
    (hstack : s.stack = []) :
    s.destroy.Flowing bufferSize range ∧ s.destroy.next = s.next ∧ s.destroy.given = s.given ∧
      s.destroy.ended = true ∧ s.destroy.stack = [] := by
  have hbase : ∀ n m, ReadStream.Flowing bufferSize range
      { s with readable := false, destroyed := true, closes := n, openListeners := m } :=
    fun _ _ => ⟨⟨h.size, h.start, h.stop, h.paused, h.decoder, h.data, h.start_le, h.le_stop, h.zero,
      h.next⟩, .ended hreads (Or.inr hstack) hopening hended⟩
  unfold ReadStream.destroy
  dsimp only
  split
  · exact ⟨hbase _ _, rfl, rfl, hended, hstack⟩
  · exact ⟨hbase _ _, rfl, rfl, hended, hstack⟩

theorem turned_ret (h : s.stream.Flowing bufferSize range) (hs : s.step file .ret = some s') :
    Turned file bufferSize range s s' .ret := by
  obtain ⟨hstream, hoffset⟩ := act_eq hs
  dsimp only [ReadStream.step] at hstream
  have hsteady : ({ s.stream with stack := [] } : ReadStream Empty).Steady bufferSize range :=
    ⟨h.size, h.start, h.stop, h.paused, h.decoder, h.data, h.start_le, h.le_stop, h.zero, h.next⟩
  cases h.phase with
  | opening _ _ _ hstack =>
    rw [hstack] at hstream
    cases hstream
  | between f hreads hreading hreadable hframe hstack hopening hended =>
    rw [hstack] at hstream
    have heq : s'.stream = ({ s.stream with stack := [] } : ReadStream Empty).read := by
      rcases hframe with rfl | rfl
      · exact (Option.some.inj hstream).symm
      · exact (Option.some.inj hstream).symm
    obtain ⟨hflowing, hnext, hgiven, hended', hopening', hstack'⟩ :=
      hsteady.read hreads hreading hreadable rfl hopening hended
    rw [← heq] at hflowing hnext hgiven hended' hopening' hstack'
    have hkept : s'.stream.next = s.stream.next := hnext
    refine ⟨hflowing, .quiet _ nofun hkept hgiven (hended'.trans hended.symm), ?_⟩
    unfold work
    rw [hkept, hoffset, hended', hopening', hstack', hended, hopening, hstack]
    show 1 + (_ + 2) ≤ _ + 3
    omega
  | reading _ _ _ _ hstack =>
    rw [hstack] at hstream
    cases hstream
  | ended hreads hstack hopening hended =>
    rcases hstack with hstack | hstack
    · rw [hstack] at hstream
      have heq : s'.stream = ({ s.stream with stack := [] } : ReadStream Empty).destroy :=
        (Option.some.inj hstream).symm
      obtain ⟨hflowing, hnext, hgiven, hended', hstack'⟩ :=
        flowing_destroy hsteady hreads hopening hended rfl
      rw [← heq] at hflowing hnext hgiven hended' hstack'
      refine ⟨hflowing, .quiet _ nofun hnext hgiven (hended'.trans hended.symm), ?_⟩
      unfold work
      rw [hended', hended, hstack', hstack]
      exact Nat.le_refl _
    · rw [hstack] at hstream
      cases hstream

/-- The stream with its read taken away, whatever else was recorded. -/
theorem steady_moved {s : ReadStream Empty} (h : s.Steady bufferSize range) {l : ℕ}
    (hpos : s.readPos = some (s.next + l)) (hstop : ∀ e ∈ range.stop, s.next + l ≤ e + 1)
    (hzero : bufferSize = 0 → l = 0) (received given : List Bytes) (data late : List Data)
    (ended : Bool) (stack : List Frame) (hdata : data = given.map .buffer) :
    let t : ReadStream Empty := { s with
      reads := [], reading := false, received := received, given := given, data := data
      late := late, ended := ended, stack := stack }
    t.Steady bufferSize range ∧ t.next = s.next + l := by
  intro t
  have hnext : t.next = s.next + l := ReadStream.next_of_nil rfl hpos
  refine ⟨⟨h.size, h.start, h.stop, h.paused, h.decoder, hdata, ?_, ?_, ?_, ?_⟩, hnext⟩
  · rw [hnext]
    exact Nat.le_add_right_of_le h.start_le
  · rw [hnext]
    exact hstop
  · intro hsize
    rw [hnext, hzero hsize, Nat.add_zero]
    exact h.zero hsize
  · intro _
    rw [hnext]
    exact hpos

/-- The stream when a read has returned. -/
theorem flowing_completed {s s' : ReadStream Empty} (h : s.Flowing bufferSize range) {l : ℕ}
    (hreads : s.reads = [⟨l, some s.next⟩]) {b : Bytes}
    (hs : s.step nofun (.completed 0 (some b)) = some s') :
    s'.Flowing bufferSize range ∧ s'.next = s.next + l ∧
      s'.given.flatten = s.given.flatten ++ b ∧ s'.opening = false ∧ s'.stack.length = 1 ∧
      s'.ended = b.isEmpty := by
  cases h.phase with
  | opening hnil =>
    rw [hnil] at hreads
    cases hreads
  | between _ hnil =>
    rw [hnil] at hreads
    cases hreads
  | ended hnil =>
    rw [hnil] at hreads
    cases hreads
  | reading l' hreads' hpos hreadable hstack hopening hended hstop hspent hzero =>
    obtain rfl : l = l' := congrArg Read.length (List.cons.inj (hreads.symm.trans hreads')).1
    dsimp only [ReadStream.step] at hs
    rw [hreads] at hs
    dsimp only [List.getElem?_cons_zero] at hs
    split_ifs at hs with hguard
    have heq := (Option.some.inj hs).symm
    cases b with
    | nil =>
      obtain ⟨hsteady, hnext⟩ :=
        steady_moved h.toSteady hpos hstop hzero s.received s.given s.data s.late true [.ended] h.data
      rw [heq]
      exact ⟨⟨hsteady, .ended rfl (Or.inl rfl) hopening rfl⟩, hnext, (List.append_nil _).symm,
        hopening, rfl, rfl⟩
    | cons c b =>
      have hdata : s.data ++ [Data.buffer (c :: b)] = (s.given ++ [c :: b]).map Data.buffer := by
        rw [h.data, List.map_append]
        rfl
      obtain ⟨hsteady, hnext⟩ := steady_moved h.toSteady hpos hstop hzero (s.received ++ [c :: b])
        (s.given ++ [c :: b]) _ (if s.destroyed then s.late ++ [.buffer (c :: b)] else s.late) s.ended
        [.read] hdata
      have hemit : s' = { s with
          reads := [], reading := false, received := s.received ++ [c :: b]
          given := s.given ++ [c :: b], data := s.data ++ [.buffer (c :: b)]
          late := if s.destroyed then s.late ++ [.buffer (c :: b)] else s.late
          ended := s.ended, stack := [.read] } := by
        rw [heq]
        unfold ReadStream.afterRead ReadStream.emitThen ReadStream.emitData
        simp [h.paused, hreadable, h.decoder, hstack, ReadStream.emit]
      rw [hemit]
      refine ⟨⟨hsteady, .between .read rfl rfl hreadable (Or.inr rfl) rfl hopening hended⟩, hnext, ?_,
        hopening, rfl, hended⟩
      show (s.given ++ [c :: b]).flatten = _
      rw [List.flatten_append]
      simp

/-- The read that waits, if the stream is at all waiting for one. -/
theorem reads_eq {s : ReadStream Empty} (h : s.Flowing bufferSize range) :
    s.reads = [] ∨ ∃ l, s.reads = [⟨l, some s.next⟩] ∧ s.opening = false ∧ s.ended = false ∧
      s.stack = [] ∧ (l = 0 → ReadStream.Spent bufferSize range s.next) := by
  cases h.phase with
  | opening hnil => exact Or.inl hnil
  | between _ hnil => exact Or.inl hnil
  | ended hnil => exact Or.inl hnil
  | reading l hreads _ _ hstack hopening hended _ hspent =>
    exact Or.inr ⟨l, hreads, hopening, hended, hstack, hspent⟩

theorem turned_read (h : s.stream.Flowing bufferSize range) {n : ℕ}
    (hs : s.step file (.read n) = some s') : Turned file bufferSize range s s' (.read n) := by
  unfold step at hs
  rcases reads_eq h with hreads | ⟨l, hreads, hopening, hended, hstack, hspent⟩
  · rw [hreads] at hs
    cases hs
  · rw [hreads] at hs
    dsimp only at hs
    obtain ⟨hcount, hact⟩ := Option.ite_none_right_eq_some.mp hs
    have hle := hcount.1
    obtain ⟨hstream, hoffset⟩ := act_eq hact
    dsimp only at hstream hoffset
    obtain ⟨hflowing, hnext, hgiven, hopening', hstack', hended'⟩ :=
      flowing_completed h hreads hstream
    have hlength : ((file.drop (s.place ⟨l, some s.stream.next⟩)).take n).length = n := by
      rw [List.length_take, List.length_drop]
      omega
    have hnil : s'.stream.ended = true ↔ n = 0 := by
      rw [hended', List.isEmpty_iff, ← List.length_eq_zero_iff, hlength]
    refine ⟨hflowing, .read n l hreads hle hnext hgiven hended hnil.mp hspent, ?_⟩
    unfold work
    rw [hended, hopening, hstack, hopening']
    show 1 + _ ≤ _ + 2
    by_cases hzero : n = 0
    · rw [if_pos (hnil.mpr hzero), hstack']
      exact Nat.le_add_left _ _
    · have hne : s'.stream.stack.isEmpty = false := by
        cases hst : s'.stream.stack with
        | nil =>
          rw [hst] at hstack'
          cases hstack'
        | cons f fs => rfl
      rw [if_neg (mt hnil.mp hzero), hne, hnext, hoffset]
      show 1 + (_ + 3) ≤ _
      -- either the position or the offset comes nearer to the end of the file
      unfold place at hle
      dsimp only at hle
      cases hoff : getOffset (some s.stream.next) with
      | some p =>
        have hp : p = s.stream.next := by
          unfold getOffset at hoff
          exact (Option.some.inj (Option.filter_eq_some_iff.mp hoff).1).symm
        rw [hoff, hp] at hle
        simp only [Option.getD_some] at hle
        simp only [Option.isSome_some, if_true]
        omega
      | none =>
        rw [hoff] at hle
        simp only [Option.getD_none] at hle
        simp only [Option.isSome_none, Bool.false_eq_true, if_false]
        omega

theorem turned (h : s.stream.Flowing bufferSize range) (hs : s.step file t = some s') :
    Turned file bufferSize range s s' t := by
  cases t with
  | opened fd => exact turned_opened h hs
  | read n => exact turned_read h hs
  | ret => exact turned_ret h hs
  | pool used => exact turned_pool h hs

/-- A stream that has not ended waits for something. -/
theorem exists_turn (h : s.stream.Flowing bufferSize range) (hended : s.stream.ended = false)
    (file : Bytes) : ∃ t s', t.isPool = false ∧ s.step file t = some s' := by
  cases h.phase with
  | opening _ _ _ hstack hopening =>
    refine ⟨.opened 0, ⟨s.stream.afterOpen (some 0), s.offset⟩, rfl, ?_⟩
    simp [step, act, ReadStream.step, hstack, hopening]
  | between f _ _ _ _ hstack =>
    refine ⟨.ret, ⟨({ s.stream with stack := [] } : ReadStream Empty).leave f, s.offset⟩, rfl, ?_⟩
    simp [step, act, ReadStream.step, hstack]
  | reading l hreads _ _ hstack =>
    let r : Read := ⟨l, some s.stream.next⟩
    let count := min l (file.length - s.place r)
    let bytes := (file.drop (s.place r)).take count
    have hbytes : bytes.length ≤ l := by
      show ((file.drop _).take _).length ≤ l
      rw [List.length_take]
      omega
    let s₁ : Reader :=
      { s with offset := if (getOffset r.position).isSome then s.offset else s.offset + count }
    obtain ⟨stream, hstream⟩ : ∃ stream,
        s₁.stream.step nofun (.completed 0 (some bytes)) = some stream := by
      refine ⟨({ s.stream with reads := [], stack := [] } : ReadStream Empty).afterRead nofun
        (some bytes), ?_⟩
      show s.stream.step nofun (.completed 0 (some bytes)) = _
      unfold ReadStream.step
      rw [hreads, hstack]
      simp [hbytes]
    refine ⟨.read count, { s₁ with stream := stream }, rfl, ?_⟩
    unfold step
    rw [hreads]
    dsimp only
    rw [if_pos ⟨Nat.le_refl _, fun hpos => hpos⟩]
    unfold act
    rw [hstream]
    rfl
  | ended _ _ _ htrue => cases hended.symm.trans htrue

/-! ### The bytes that are emitted -/

theorem place_of_lt {l p : ℕ} (hp : p < 0x80000000) (s : Reader) : s.place ⟨l, some p⟩ = p := by
  unfold place getOffset
  rw [Option.filter_some, if_pos (by simpa using hp)]
  rfl

/-- What was emitted reaches up to the position, as long as every read is full. -/
def Exactly (file : Bytes) (bufferSize : ℕ) (range : Range) (s : Reader) : Prop :=
  s.stream.given.flatten = (file.drop range.start).take (s.stream.next - range.start) ∧
    (s.stream.ended = true →
      ReadStream.Spent bufferSize range s.stream.next ∨ file.length ≤ s.stream.next)

/-- A full read returns what follows in the file. -/
theorem read_full {n l : ℕ} (hreads : s.stream.reads = [⟨l, some s.stream.next⟩])
    (hfull : s.Full file (.read n) s') :
    n = min l (file.length - s.stream.next) ∧
      (file.drop (s.place ⟨l, some s.stream.next⟩)).take n = (file.drop s.stream.next).take l := by
  obtain ⟨hn, hplace⟩ := hfull ⟨l, some s.stream.next⟩ (by rw [hreads]; exact List.mem_singleton_self _)
    s.stream.next rfl
  refine ⟨hn, ?_⟩
  have hall : (file.drop s.stream.next).take l = (file.drop s.stream.next).take n := by
    rw [List.take_eq_take_iff, List.length_drop, hn]
    dsimp only
    omega
  rw [hall]
  rcases hplace with hlt | hzero
  · rw [place_of_lt hlt]
  · rw [hzero]
    rfl

theorem Exactly.step (h : s.stream.Flowing bufferSize range)
    (hexactly : s.Exactly file bufferSize range) (hfull : s.Full file t s')
    (hs : s.step file t = some s') : s'.Exactly file bufferSize range := by
  cases (turned h hs).effect with
  | quiet _ _ hnext hgiven hended =>
    unfold Exactly
    rw [hnext, hgiven, hended]
    exact hexactly
  | read n l hreads _ hnext hgiven _ hended hspent =>
    obtain ⟨hn, hbytes⟩ := read_full hreads hfull
    have hstart := h.start_le
    refine ⟨?_, fun he => ?_⟩
    · have hsum : s.stream.next + l - range.start = s.stream.next - range.start + l := by omega
      have hdrop : (file.drop range.start).drop (s.stream.next - range.start) =
          file.drop s.stream.next := by
        rw [List.drop_drop, Nat.add_sub_cancel' hstart]
      rw [hgiven, hbytes, hexactly.1, hnext, hsum, List.take_add, hdrop]
    · have hzero := hended he
      rw [hnext]
      by_cases hl : l = 0
      · rw [hl, Nat.add_zero]
        exact Or.inl (hspent hl)
      · right
        omega

/-- A stream that has read all there is has emitted the range. -/
theorem Exactly.emits (h : s.stream.Flowing bufferSize range)
    (hexactly : s.Exactly file bufferSize range) (hended : s.stream.ended = true)
    (hsize : 0 < bufferSize ∨ file.length ≤ range.start) : s.Emits (range.bytes file) := by
  refine ⟨s.stream.given, h.data, ?_⟩
  rw [hexactly.1]
  have hstop := h.le_stop
  unfold Range.bytes
  cases hr : range.stop with
  | none =>
    dsimp only
    apply List.take_of_length_le
    rw [List.length_drop]
    rcases hexactly.2 hended with (hzero | ⟨e, he, _⟩) | hle
    · omega
    · rw [hr] at he
      cases he
    · omega
  | some e =>
    have hnext := hstop e hr
    dsimp only
    rw [List.take_eq_take_iff, List.length_drop]
    rcases hexactly.2 hended with (hzero | ⟨e', he', hnext'⟩) | hle
    · omega
    · obtain rfl : e = e' := Option.some.inj (hr.symm.trans he')
      rw [hnext']
    · omega

/-- No more was emitted than lies before the position. -/
def Fits (file : Bytes) (range : Range) (s : Reader) : Prop :=
  s.stream.given.flatten.length + min range.start file.length ≤ min s.stream.next file.length

/-- Some bytes before the position were left out. -/
def Lacks (file : Bytes) (range : Range) (s : Reader) : Prop :=
  s.stream.given.flatten.length + min range.start file.length < min s.stream.next file.length

/-- What a read below `0x80000000` adds to the bytes that were emitted, and to the position. -/
theorem length_read {n l : ℕ} (hreads : s.stream.reads = [⟨l, some s.stream.next⟩])
    (hbelow : s.Below (.read n) s')
    (hcount : n ≤ min l (file.length - s.place ⟨l, some s.stream.next⟩))
    (hgiven : s'.stream.given.flatten =
      s.stream.given.flatten ++ (file.drop (s.place ⟨l, some s.stream.next⟩)).take n) :
    s.stream.next < 0x80000000 ∧ n ≤ min l (file.length - s.stream.next) ∧
      s'.stream.given.flatten.length = s.stream.given.flatten.length + n := by
  have hlt := hbelow ⟨l, some s.stream.next⟩ (by rw [hreads]; exact List.mem_singleton_self _)
    s.stream.next rfl
  rw [place_of_lt hlt] at hcount hgiven
  refine ⟨hlt, hcount, ?_⟩
  rw [hgiven, List.length_append, List.length_take, List.length_drop]
  omega

theorem Fits.step (h : s.stream.Flowing bufferSize range) (hfits : s.Fits file range)
    (hbelow : s.Below t s') (hs : s.step file t = some s') :
    s'.Fits file range ∧ (s.Lacks file range → s'.Lacks file range) ∧
      (s.Full file t s' ∨ s'.Lacks file range) := by
  unfold Fits Lacks at *
  cases (turned h hs).effect with
  | quiet _ hturn hnext hgiven _ =>
    rw [hnext, hgiven]
    refine ⟨hfits, id, Or.inl ?_⟩
    cases t with
    | read n => exact absurd rfl (hturn n)
    | _ => trivial
  | read n l hreads hcount hnext hgiven _ _ _ =>
    obtain ⟨hlt, hn, hlength⟩ := length_read hreads hbelow hcount hgiven
    rw [hnext, hlength]
    refine ⟨by omega, by omega, ?_⟩
    by_cases hall : n = min l (file.length - s.stream.next)
    · left
      intro r hr p hp
      rw [hreads] at hr
      obtain rfl := List.mem_singleton.mp hr
      obtain rfl : s.stream.next = p := Option.some.inj hp
      exact ⟨hall, Or.inl hlt⟩
    · right
      omega

theorem length_bytes (range : Range) (file : Bytes) :
    (range.bytes file).length + min range.start file.length =
      min file.length (range.stop.elim file.length (· + 1)) := by
  unfold Range.bytes
  cases hr : range.stop with
  | none =>
    dsimp only [Option.elim]
    rw [List.length_drop]
    omega
  | some e =>
    have hle := range.start_le e hr
    dsimp only [Option.elim]
    rw [List.length_take, List.length_drop]
    omega

theorem length_of_emits (h : s.stream.Flowing bufferSize range) {bytes : Bytes}
    (hemits : s.Emits bytes) : s.stream.given.flatten.length = bytes.length := by
  obtain ⟨chunks, hdata, hbytes⟩ := hemits
  have hinj : Function.Injective Data.buffer := fun _ _ heq => Data.buffer.inj heq
  have hchunks : s.stream.given = chunks :=
    List.map_injective_iff.mpr hinj (h.data.symm.trans hdata)
  rw [hchunks, hbytes]

/-- A stream that emitted the range left nothing out. -/
theorem not_lacks (h : s.stream.Flowing bufferSize range) (hemits : s.Emits (range.bytes file)) :
    ¬ s.Lacks file range := by
  unfold Lacks
  have hlength := length_bytes range file
  have hnext := h.le_stop
  rw [length_of_emits h hemits]
  cases hr : range.stop with
  | none =>
    rw [hr] at hlength
    dsimp only [Option.elim] at hlength
    omega
  | some e =>
    have hle := hnext e hr
    rw [hr] at hlength
    dsimp only [Option.elim] at hlength
    omega

/-- With a buffer of size 0 nothing is ever read. -/
theorem size_of_emits (h : s.stream.Flowing bufferSize range) (hfits : s.Fits file range)
    (hemits : s.Emits (range.bytes file)) : 0 < bufferSize ∨ file.length ≤ range.start := by
  by_contra hneg
  obtain ⟨hsize, hstart⟩ := not_or.mp hneg
  have hlength := length_bytes range file
  unfold Fits at hfits
  rw [length_of_emits h hemits, h.zero (by omega)] at hfits
  cases hr : range.stop with
  | none =>
    rw [hr] at hlength
    dsimp only [Option.elim] at hlength
    omega
  | some e =>
    have hle := range.start_le e hr
    rw [hr] at hlength
    dsimp only [Option.elim] at hlength
    omega

theorem flowing_of_run {turns : List Turn}
    (hrun : Lib.run (step file) (new bufferSize range) turns = some s) :
    s.stream.Flowing bufferSize range :=
  (Lib.along_trivial (new bufferSize range) turns).invariant ReadStream.flowing_new
    (fun _ _ _ h _ hs => (turned h hs).flowing) hrun

theorem work_lt (h : s.stream.Flowing bufferSize range) (ht : (!t.isPool) = true)
    (hs : s.step file t = some s') : s'.work file < s.work file := by
  have hwork := (turned h hs).work
  rw [if_pos ht] at hwork
  omega

theorem work_le (h : s.stream.Flowing bufferSize range) (hs : s.step file t = some s') :
    s'.work file ≤ s.work file + 0 := by
  have hwork := (turned h hs).work
  omega

theorem countP_le {turns : List Turn}
    (hrun : Lib.run (step file) (new bufferSize range) turns = some s) :
    turns.countP (!·.isPool) ≤ 4 * file.length + 4 := by
  have hcount := Lib.countP_le_of_run (p := (!·.isPool)) (c := 0)
    (I := fun s : Reader => s.stream.Flowing bufferSize range) (μ := work file)
    ReadStream.flowing_new (fun _ _ _ h hs => (turned h hs).flowing)
    (fun _ _ _ h ht hs => work_lt h ht hs) (fun _ _ _ h _ hs => work_le h hs) hrun
  have hnew : (new bufferSize range).work file =
      2 * (file.length - range.start) + 2 * (file.length - 0) + 4 := rfl
  omega

theorem emits_of_full {turns : List Turn}
    (hrun : Lib.run (step file) (new bufferSize range) turns = some s)
    (hended : s.stream.ended = true) (hsize : 0 < bufferSize ∨ file.length ≤ range.start)
    (hfull : Lib.Along (step file) (Full file) (new bufferSize range) turns) :
    s.Emits (range.bytes file) := by
  have hstart : (new bufferSize range).Exactly file bufferSize range := by
    refine ⟨?_, nofun⟩
    show [] = (file.drop range.start).take (range.start - range.start)
    rw [Nat.sub_self]
    rfl
  have hexactly := hfull.invariant
    (I := fun s => s.stream.Flowing bufferSize range ∧ s.Exactly file bufferSize range)
    ⟨ReadStream.flowing_new, hstart⟩
    (fun _ _ _ h hf hs => ⟨(turned h.1 hs).flowing, Exactly.step h.1 h.2 hf hs⟩) hrun
  exact hexactly.2.emits hexactly.1 hended hsize

theorem full_of_emits {turns : List Turn}
    (hrun : Lib.run (step file) (new bufferSize range) turns = some s)
    (hbelow : Lib.Along (step file) Below (new bufferSize range) turns)
    (hemits : s.Emits (range.bytes file)) :
    (0 < bufferSize ∨ file.length ≤ range.start) ∧
      Lib.Along (step file) (Full file) (new bufferSize range) turns := by
  have hstart : (new bufferSize range).Fits file range := by
    show 0 + min range.start file.length ≤ min range.start file.length
    omega
  have hkept : ∀ (s : Reader) (t : Turn) (s' : Reader),
      s.stream.Flowing bufferSize range ∧ s.Fits file range → s.Below t s' →
      s.step file t = some s' → s'.stream.Flowing bufferSize range ∧ s'.Fits file range :=
    fun _ _ _ h hb hs => ⟨(turned h.1 hs).flowing, (Fits.step h.1 h.2 hb hs).1⟩
  have hfits := hbelow.invariant
    (I := fun s => s.stream.Flowing bufferSize range ∧ s.Fits file range)
    ⟨ReadStream.flowing_new, hstart⟩ hkept hrun
  have hor := Lib.along_or (P := Below) (Q := Full file) (B := Lacks file range)
    (I := fun s => s.stream.Flowing bufferSize range ∧ s.Fits file range)
    ⟨ReadStream.flowing_new, hstart⟩ hkept (fun _ _ _ h hl hb hs => (Fits.step h.1 h.2 hb hs).2.1 hl)
    (fun _ _ _ h hb hs => (Fits.step h.1 h.2 hb hs).2.2) hbelow hrun
  exact ⟨size_of_emits hfits.1 hfits.2 hemits, hor.resolve_right (not_lacks hfits.1 hemits)⟩

/-- Every run comes to an end. It emits the range if nothing is asked for in vain, and every read is
full and below `0x80000000`; among the runs whose reads are all below `0x80000000` no others do. -/
theorem emits_range {turns : List Turn}
    (hrun : Lib.run (step file) (new bufferSize range) turns = some s) :
    turns.countP (!·.isPool) ≤ 4 * file.length + 4 ∧
      (s.stream.ended = false → ∃ t s', t.isPool = false ∧ s.step file t = some s') ∧
      (s.stream.ended = true →
        ((0 < bufferSize ∨ file.length ≤ range.start) →
          Lib.Along (step file) (Full file) (new bufferSize range) turns →
          s.Emits (range.bytes file)) ∧
        (Lib.Along (step file) Below (new bufferSize range) turns → s.Emits (range.bytes file) →
          (0 < bufferSize ∨ file.length ≤ range.start) ∧
          Lib.Along (step file) (Full file) (new bufferSize range) turns)) := by
  refine ⟨countP_le hrun, fun hended => ?_, fun hended => ⟨?_, ?_⟩⟩
  · exact exists_turn (flowing_of_run hrun) hended file
  · exact emits_of_full hrun hended
  · exact full_of_emits hrun

theorem emits_range_middle :
    ∃ s, Lib.run (step [97, 98, 99]) (new 64 ⟨1, some 1, by decide⟩)
        [.opened 3, .ret, .read 1, .ret, .read 0, .ret] = some s ∧ s.Emits [98] := by
  obtain ⟨s, hs⟩ : ∃ s, Lib.run (step [97, 98, 99]) (new 64 ⟨1, some 1, by decide⟩)
      [.opened 3, .ret, .read 1, .ret, .read 0, .ret] = some s := ⟨_, rfl⟩
  have hended : s.stream.ended = true := by
    obtain rfl := Option.some.inj hs
    rfl
  refine ⟨s, hs, ((emits_range hs).2.2 hended).1 (Or.inl (by decide)) ?_⟩
  refine Lib.along_cons rfl trivial (Lib.along_cons rfl trivial (Lib.along_cons rfl ?_
    (Lib.along_cons rfl trivial (Lib.along_cons rfl ?_ (Lib.along_cons rfl trivial trivial)))))
  · show ∀ r ∈ [(⟨1, some 1⟩ : Read)], ∀ p ∈ r.position, _
    simp
  · show ∀ r ∈ [(⟨0, some 2⟩ : Read)], ∀ p ∈ r.position, _
    simp

/-- After a read that returns one byte of three the next one is made at position 40960. -/
theorem not_emits_range :
    ¬ ∀ (file : Bytes) (bufferSize : ℕ) (range : Range) (turns : List Turn) (s : Reader),
      Lib.run (step file) (new bufferSize range) turns = some s → s.stream.ended = true →
      s.Emits (range.bytes file) := by
  intro h
  have hrun : Lib.run (step [97, 98, 99]) (new 65536 ⟨0, none, by simp⟩)
      [.opened 3, .ret, .read 1, .ret, .read 0, .ret] = some _ := rfl
  obtain ⟨chunks, hdata, hbytes⟩ := h _ _ _ _ _ hrun rfl
  have hchunks : [[97]] = chunks :=
    List.map_injective_iff.mpr (fun _ _ heq => Data.buffer.inj heq) hdata
  rw [← hchunks] at hbytes
  cases hbytes

end Reader

end NodeJS.Fs
