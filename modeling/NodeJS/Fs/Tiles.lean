import NodeJS.Fs.ReadFile
import NodeJS.Lib.Inevitable

/-! `readFile` and `readFileSync` return the whole file, and `writeFile` and `writeFileSync` write
all of the data, however the system calls divide them. -/
namespace NodeJS.Fs

def Reply.Ok : Reply → Prop
  | .opened fd => fd.isSome
  | .read n => n.isSome
  | .wrote n => n.isSome
  | .closed ok => ok
  | .tick => True

/-- The first `p` bytes have been written, all at their own positions. -/
structure Tiled (data : Bytes) (p : ℕ) (file : Bytes) (writes : List (Option ℕ × Bytes)) :
    Prop where
  le : p ≤ data.length
  file : file = data.take p
  places : ∀ w ∈ writes, ∃ q, w.1 = some q ∧ w.2 = (data.drop q).take w.2.length

theorem Tiled.new (data : Bytes) : Tiled data 0 [] [] := ⟨Nat.zero_le _, rfl, nofun⟩

/-- A write at `p` adds the bytes that are next. -/
theorem Tiled.write {data : Bytes} {p : ℕ} {k k' : Kernel} {writes : List (Option ℕ × Bytes)}
    (h : Tiled data p k.file writes) {length n : ℕ} (hlength : p + length = data.length)
    (hwrite : k.write ((data.drop p).take length) (some p) n = some k') :
    0 < n ∧ n ≤ length ∧
      Tiled data (p + n) k'.file (writes ++ [(some p, ((data.drop p).take length).take n)]) := by
  unfold Kernel.write at hwrite
  dsimp only [Option.getD_some] at hwrite
  split_ifs at hwrite with hn hsome
  · obtain ⟨hpos, hle⟩ := hn
    rw [List.length_take, List.length_drop] at hle
    have hnle : n ≤ length := by omega
    have htake : ((data.drop p).take length).take n = (data.drop p).take n := by
      rw [List.take_take, Nat.min_eq_left hnle]
    obtain rfl := Option.some.inj hwrite
    refine ⟨hpos, hnle, by omega, ?_, fun w hw => ?_⟩
    · have hfile : k.file.length = p := by
        rw [h.file, List.length_take_of_le h.le]
      have hrest : k.file.drop (p + n) = [] := List.drop_eq_nil_of_le (by omega)
      show k.file.take p ++ List.replicate (p - k.file.length) 0 ++ _ ++ k.file.drop (p + n) = _
      rw [hfile, Nat.sub_self, List.replicate_zero, List.append_nil, htake,
        hrest, List.append_nil, h.file, List.take_take, Nat.min_self,
        ← List.take_add]
    · rcases List.mem_append.mp hw with hw | hw
      · exact h.places w hw
      · obtain rfl := List.mem_singleton.mp hw
        refine ⟨p, rfl, ?_⟩
        have hlen : ((data.drop p).take n).length = n := by
          rw [List.length_take, List.length_drop]
          omega
        dsimp only
        rw [htake, hlen]
  · exact absurd rfl hsome

/-! ### `readFileSync` -/

namespace ReadFileSync
variable (memory : ℕ → UInt8) (toString : Option (Bytes → Option JSString))

structure Reading (content : Bytes) (s : ReadFileSync) : Prop where
  file : s.kernel.file = content
  offset : s.kernel.offset ≤ content.length
  nread : s.nread = s.kernel.offset
  pieces : Pieces s.buffers (content.take s.kernel.offset)

def Stage (content : Bytes) (s : ReadFileSync) : Prop :=
  match s.phase with
  | .opening => s.Reading content ∧ s.kernel.offset = 0 ∧ s.lastRead = 0
  | .calling t => s.Reading content ∧ s.fd < 2 ^ 31 ∧ 0 < t.length ∧ t.position = none
  | .closing => s.Reading content ∧ s.kernel.offset = content.length
  | .finished => s.outcome = some (encoded toString content)

/-- How many replies are needed at most. -/
def rank (content : Bytes) (s : ReadFileSync) : ℕ :=
  match s.phase with
  | .opening => content.length + 3
  | .calling _ => content.length - s.kernel.offset + 2
  | .closing => 1
  | .finished => 0

variable {memory toString} {content : Bytes} {s s' : ReadFileSync}

variable (memory toString) in
/-- The next read is issued. -/
theorem round_stage (hfd : s.fd < 2 ^ 31) (h : s.push.Reading content) :
    (s.round memory).Stage toString content ∧
      (s.round memory).rank content = content.length - s.kernel.offset + 2 := by
  rw [round_eq memory hfd]
  refine ⟨⟨⟨h.file, h.offset, h.nread, h.pieces⟩, ?_, Nat.zero_lt_succ _, rfl⟩, ?_⟩
  · show s.push.fd < 2 ^ 31
    rw [push_fd]
    exact hfd
  · show content.length - s.push.kernel.offset + 2 = _
    rw [push_kernel]

/-- What was read is one more piece. -/
theorem push_reading (h : s.Reading content) {n : ℕ} (hn : 0 < n)
    {bytes : Bytes} {length : ℕ} {kernel : Kernel}
    (hread : s.kernel.read length none n = some (bytes, kernel)) (rest : Bytes) :
    { s with kernel := kernel, lastRead := n, buffer := bytes ++ rest }.push.Reading content := by
  obtain ⟨hbytes, hlength, -, rfl, -⟩ := Kernel.read_some hread
  have hle : s.kernel.offset + n ≤ content.length := by
    rw [hbytes, h.file, List.length_take, List.length_drop] at hlength
    omega
  unfold push
  rw [if_pos (by dsimp only; omega)]
  refine ⟨h.file, hle, congrArg (· + n) h.nread, ?_⟩
  have hsnoc := h.pieces.snoc hn (b := bytes ++ rest) (by
    rw [List.length_append]
    omega)
  have hcontent : content.take s.kernel.offset ++ bytes = content.take (s.kernel.offset + n) := by
    rw [hbytes, h.file, ← List.take_add]
  rw [List.take_left' hlength, hcontent] at hsnoc
  exact hsnoc

variable (memory) in
/-- What is returned when the end has been reached. -/
theorem result_eq (h : s.Reading content) (hend : s.kernel.offset = content.length) :
    s.result memory toString = encoded toString content := by
  have hpieces := h.pieces
  have hnread := h.nread
  rw [hend, List.take_length] at hpieces
  rw [hend] at hnread
  unfold result
  split
  · rename_i hnil
    rw [hnil] at hpieces
    obtain rfl : [] = content := hpieces.flatten
    rfl
  · rename_i b n hone
    rw [hone] at hpieces
    have hflatten : b.take n ++ [] = content := hpieces.flatten
    rw [List.append_nil] at hflatten
    rw [hflatten]
  · rw [hnread, concat_pieces memory hpieces]

attribute [local irreducible] round

theorem step_stage (h : s.Stage toString content) {r : Reply} (hr : r.Ok)
    (hs : s.step memory toString r = some s') :
    s'.Stage toString content ∧ s'.rank content < s.rank content := by
  cases step_effect hs with
  | openFailed phase => cases hr
  | @opened fd phase hfd =>
    rw [Stage, phase] at h
    obtain ⟨reading, hoffset, hlast⟩ := h
    let t : ReadFileSync := { s with fd := fd, account := { s.account with opened := true } }
    have hpush : t.push = t := if_neg (not_not.mpr hlast)
    have hreading : t.push.Reading content := by
      rw [hpush]
      exact ⟨reading.file, reading.offset, reading.nread, reading.pieces⟩
    obtain ⟨hstage, hrank⟩ :=
      round_stage memory toString hfd hreading
    refine ⟨hstage, ?_⟩
    rw [hrank, rank, phase]
    show content.length - s.kernel.offset + 2 < content.length + 3
    omega
  | readFailed phase => cases hr
  | @read t n bytes kernel phase hread hn =>
    rw [Stage, phase] at h
    obtain ⟨reading, hfd, hlength, hposition⟩ := h
    rw [hposition] at hread
    have hpush := push_reading reading hn hread (s.buffer.drop n)
    obtain ⟨hstage, hrank⟩ := round_stage memory toString
      (s := { s with kernel := kernel, lastRead := n, buffer := bytes ++ s.buffer.drop n })
      hfd hpush
    obtain ⟨-, -, -, rfl, -⟩ := Kernel.read_some hread
    have hle := hpush.offset
    rw [push_kernel] at hle
    dsimp only at hle
    refine ⟨hstage, ?_⟩
    rw [hrank, rank, phase]
    dsimp only
    omega
  | @last t bytes kernel phase hread =>
    rw [Stage, phase] at h
    obtain ⟨reading, hfd, hlength, hposition⟩ := h
    rw [hposition] at hread
    obtain ⟨-, -, -, rfl, hend⟩ := Kernel.read_some hread
    have hoffset : s.kernel.offset = content.length := by
      have hle := reading.offset
      rw [reading.file] at hend
      have hend' := hend rfl
      omega
    refine ⟨⟨⟨reading.file, reading.offset, reading.nread, reading.pieces⟩, hoffset⟩, ?_⟩
    rw [rank, rank, phase]
    dsimp only
    omega
  | closed phase =>
    rw [Stage, phase] at h
    refine ⟨congrArg some (result_eq memory h.1 h.2), ?_⟩
    rw [rank, rank, phase]
    exact Nat.one_pos
  | closeFailed phase => cases hr

variable (memory) in
theorem enabled (h : s.Stage toString content) :
    s.outcome = some (encoded toString content) ∨
      ∃ r s', r.Ok ∧ s.step memory toString r = some s' := by
  unfold step
  cases phase : s.phase with
  | opening => exact .inr ⟨.opened (some 0), _, rfl, if_pos (by decide)⟩
  | calling t =>
    rw [Stage, phase] at h
    obtain ⟨-, -, -, hposition⟩ := h
    obtain ⟨n, r, hread⟩ := Kernel.read_enabled s.kernel t.length
    refine .inr ⟨.read (some n), ?_⟩
    dsimp only
    rw [hposition, Option.map_none, hread]
    exact ⟨_, rfl, rfl⟩
  | closing => exact .inr ⟨.closed true, _, rfl, rfl⟩
  | finished =>
    rw [Stage, phase] at h
    exact .inl h

/-- However the file is divided by the reads, all of it is returned. -/
theorem returns_file (content : Bytes) :
    Lib.Inevitable (step memory toString) (fun _ r => r.Ok)
      (fun s => s.outcome = some (encoded toString content)) (new memory content) := by
  have hnew : (new memory content).Stage toString content :=
    ⟨⟨rfl, Nat.zero_le _, rfl, ⟨nofun, rfl⟩⟩, rfl, rfl⟩
  exact Lib.inevitable_of_rank (rank content) hnew (fun _ _ _ h hr hs => (step_stage h hr hs).1)
    (fun _ h => enabled memory h) (fun _ _ _ h hr hs => (step_stage h hr hs).2)

end ReadFileSync

/-! ### `writeFileSync` -/

namespace WriteFileSync
variable {data : Contents} {s s' : WriteFileSync}

def Stage (data : Contents) (s : WriteFileSync) : Prop :=
  s.data = some data ∧
    match s.phase with
    | .opening => s.written = 0 ∧ s.writes = []
    | .calling t => Tiled data.val s.written s.kernel.file s.writes ∧ s.written < data.val.length ∧
        s.fd < 2 ^ 31 ∧ t = ⟨s.fd, s.written, data.val.length - s.written, some s.written⟩
    | .closing => Tiled data.val data.val.length s.kernel.file s.writes
    | .finished => Tiled data.val data.val.length s.kernel.file s.writes ∧ s.outcome = some true

/-- How many replies are needed at most. -/
def rank (data : Contents) (s : WriteFileSync) : ℕ :=
  match s.phase with
  | .opening => data.val.length + 3
  | .calling _ => data.val.length - s.written + 2
  | .closing => 1
  | .finished => 0

/-- The next write is issued, if there is more to be written. -/
theorem round_stage (hdata : s.data = some data) (hfd : s.fd < 2 ^ 31)
    (h : Tiled data.val s.written s.kernel.file s.writes) :
    (s.round data.val).Stage data ∧
      (s.round data.val).rank data ≤ data.val.length - s.written + 2 := by
  unfold round
  split_ifs with hlt
  · rw [Calls.writeSync_ok hfd data.property hlt]
    exact ⟨⟨hdata, h, hlt, hfd, rfl⟩, Nat.le_refl _⟩
  · obtain hall : s.written = data.val.length := Nat.le_antisymm h.le (Nat.not_lt.mp hlt)
    rw [hall] at h ⊢
    exact ⟨⟨hdata, h⟩, Nat.le_add_left 1 _⟩

theorem step_stage (h : s.Stage data) {r : Reply} (hr : r.Ok) (hs : s.step r = some s') :
    s'.Stage data ∧ s'.rank data < s.rank data := by
  obtain ⟨hdata, h⟩ := h
  cases step_effect hs with
  | openFailed phase => cases hr
  | noBuffer phase hnone => cases hdata.symm.trans hnone
  | @opened fd data' phase hfd hsome =>
    cases hdata.symm.trans hsome
    rw [phase] at h
    obtain ⟨hwritten, hwrites⟩ := h
    have hnew : Tiled data.val (s.opened fd).written (s.opened fd).kernel.file
        (s.opened fd).writes := by
      show Tiled data.val s.written [] s.writes
      rw [hwritten, hwrites]
      exact .new data.val
    obtain ⟨hstage, hrank⟩ := round_stage (s := s.opened fd) hdata hfd hnew
    have hbefore : s.rank data = data.val.length + 3 := by
      rw [rank, phase]
    refine ⟨hstage, Nat.lt_of_le_of_lt hrank ?_⟩
    rw [hbefore]
    omega
  | writeFailed phase => cases hr
  | @wrote t n data' kernel phase hsome hwrite =>
    cases hdata.symm.trans hsome
    rw [phase] at h
    obtain ⟨htiled, hlt, hfd, rfl⟩ := h
    obtain ⟨hpos, hle, htiled'⟩ := htiled.write (Nat.add_sub_cancel' htiled.le) hwrite
    obtain ⟨hstage, hrank⟩ := round_stage (s := { s with
      kernel := kernel
      written := s.written + n
      writes := s.writes ++ [(some s.written,
        ((data.val.drop s.written).take (data.val.length - s.written)).take n)] })
      hdata hfd htiled'
    have hbefore : s.rank data = data.val.length - s.written + 2 := by
      rw [rank, phase]
    refine ⟨hstage, Nat.lt_of_le_of_lt hrank ?_⟩
    rw [hbefore]
    dsimp only
    omega
  | @closed ok phase =>
    rw [phase] at h
    obtain rfl : ok = true := hr
    refine ⟨⟨hdata, h, rfl⟩, ?_⟩
    rw [rank, rank, phase]
    exact Nat.one_pos

theorem enabled (h : s.Stage data) :
    (s.outcome = some true ∧ Tiled data.val data.val.length s.kernel.file s.writes) ∨
      ∃ r s', r.Ok ∧ s.step r = some s' := by
  obtain ⟨hdata, h⟩ := h
  unfold step
  cases phase : s.phase with
  | opening =>
    refine .inr ⟨.opened (some 0), ?_⟩
    dsimp only
    rw [if_pos (by decide), hdata]
    exact ⟨_, rfl, rfl⟩
  | calling t =>
    rw [phase] at h
    obtain ⟨htiled, hlt, -, rfl⟩ := h
    have hne : (data.val.drop s.written).take (data.val.length - s.written) ≠ [] := by
      rw [← List.length_pos_iff_ne_nil, List.length_take, List.length_drop]
      omega
    obtain ⟨n, r, hwrite⟩ := s.kernel.write_enabled hne (some s.written)
    refine .inr ⟨.wrote (some n), ?_⟩
    dsimp only
    rw [hdata]
    dsimp only [Option.bind_some, Option.map_some, Int.toNat_natCast]
    rw [hwrite]
    exact ⟨_, rfl, rfl⟩
  | closing => exact .inr ⟨.closed true, _, rfl, rfl⟩
  | finished =>
    rw [phase] at h
    exact .inl ⟨h.2, h.1⟩

/-- However the data is divided by the writes, all of it is written. -/
theorem writes_data (file : Bytes) (data : Contents) :
    Lib.Inevitable step (fun _ r => r.Ok)
      (fun s => s.outcome = some true ∧ Tiled data.val data.val.length s.kernel.file s.writes)
      (new file (some data)) :=
  Lib.inevitable_of_rank (rank data) (I := Stage data) ⟨rfl, rfl, rfl⟩
    (fun _ _ _ h hr hs => (step_stage h hr hs).1) (fun _ h => enabled h)
    (fun _ _ _ h hr hs => (step_stage h hr hs).2)

end WriteFileSync

/-! ### `writeFile` -/

namespace WriteFile
variable {data : Contents} {s s' : WriteFile}

def Stage (data : Contents) (s : WriteFile) : Prop :=
  s.data = some data ∧
    match s.phase with
    | .opening => s.writes = [] ∧ s.calls = []
    | .calling t => Tiled data.val s.offset s.kernel.file s.writes ∧
        s.offset + s.length = data.val.length ∧ 0 < s.length ∧ s.fd < 2 ^ 31 ∧
        t = ⟨s.fd, s.offset, s.length, some s.offset⟩ ∧ s.calls = []
    | .ticking => Tiled data.val s.offset s.kernel.file s.writes ∧ s.offset = data.val.length ∧
        s.length = 0 ∧ s.fd < 2 ^ 31 ∧ s.calls = []
    | .closing writeErr => Tiled data.val data.val.length s.kernel.file s.writes ∧
        writeErr = false ∧ s.calls = []
    | .finished => Tiled data.val data.val.length s.kernel.file s.writes ∧ s.calls = [true]

/-- How many replies are needed at most. -/
def rank (data : Contents) (s : WriteFile) : ℕ :=
  match s.phase with
  | .opening => data.val.length + 3
  | .calling _ => s.length + 2
  | .ticking => 2
  | .closing _ => 1
  | .finished => 0

/-- The next write is issued. -/
theorem writeAll_stage (hdata : s.data = some data) (hfd : s.fd < 2 ^ 31) (hcalls : s.calls = [])
    {offset length : ℕ} (h : Tiled data.val offset s.kernel.file s.writes)
    (hlength : offset + length = data.val.length) :
    (s.writeAll data.val offset length).Stage data ∧
      (s.writeAll data.val offset length).rank data = length + 2 := by
  unfold writeAll
  cases length with
  | zero =>
    obtain rfl : offset = data.val.length := hlength
    rw [Nat.cast_zero, Calls.write_empty]
    exact ⟨⟨hdata, h, rfl, rfl, hfd, hcalls⟩, rfl⟩
  | succ m =>
    rw [Calls.write_ok hfd data.property m.succ_pos hlength]
    exact ⟨⟨hdata, h, hlength, m.succ_pos, hfd, rfl, hcalls⟩, rfl⟩

/-- What has been written is not written again. -/
theorem afterWrite_stage (hdata : s.data = some data) (hfd : s.fd < 2 ^ 31) (hcalls : s.calls = [])
    {n : ℕ} (h : Tiled data.val (s.offset + n) s.kernel.file s.writes)
    (hlength : s.offset + s.length = data.val.length) (hle : n ≤ s.length)
    (hpos : n = 0 → s.length = 0) :
    (s.afterWrite data.val n).Stage data ∧ (s.afterWrite data.val n).rank data < s.length + 2 := by
  unfold afterWrite
  split_ifs with hall
  · rw [hall, hlength] at h
    exact ⟨⟨hdata, h, rfl, hcalls⟩, Nat.lt_add_left _ Nat.one_lt_two⟩
  · obtain ⟨hstage, hrank⟩ := writeAll_stage hdata hfd hcalls h
      (by omega : s.offset + n + (s.length - n) = data.val.length)
    refine ⟨hstage, ?_⟩
    rw [hrank]
    omega

theorem step_stage (h : s.Stage data) {r : Reply} (hr : r.Ok) (hs : s.step r = some s') :
    s'.Stage data ∧ s'.rank data < s.rank data := by
  obtain ⟨hdata, h⟩ := h
  cases step_effect hs with
  | openFailed phase => cases hr
  | noBuffer phase hnone => cases hdata.symm.trans hnone
  | @opened fd data' phase hfd hsome =>
    cases hdata.symm.trans hsome
    rw [phase] at h
    obtain ⟨hwrites, hcalls⟩ := h
    have hnew : Tiled data.val 0 (s.opened fd).kernel.file (s.opened fd).writes := by
      show Tiled data.val 0 [] s.writes
      rw [hwrites]
      exact .new data.val
    obtain ⟨hstage, hrank⟩ :=
      writeAll_stage (s := s.opened fd) hdata hfd hcalls hnew (Nat.zero_add _)
    have hbefore : s.rank data = data.val.length + 3 := by
      rw [rank, phase]
    refine ⟨hstage, ?_⟩
    rw [hrank, hbefore]
    omega
  | @ticked data' phase hsome =>
    cases hdata.symm.trans hsome
    rw [phase] at h
    obtain ⟨htiled, hoffset, hlength, hfd, hcalls⟩ := h
    obtain ⟨hstage, hrank⟩ :=
      afterWrite_stage (n := 0) hdata hfd hcalls htiled (by omega) (Nat.zero_le _) fun _ => hlength
    have hbefore : s.rank data = 2 := by
      rw [rank, phase]
    refine ⟨hstage, Nat.lt_of_lt_of_le hrank ?_⟩
    rw [hlength, hbefore]
  | writeFailed phase => cases hr
  | @wrote t n data' kernel phase hsome hwrite =>
    cases hdata.symm.trans hsome
    rw [phase] at h
    obtain ⟨htiled, hlength, -, hfd, rfl, hcalls⟩ := h
    obtain ⟨hpos, hle, htiled'⟩ := htiled.write hlength hwrite
    obtain ⟨hstage, hrank⟩ := afterWrite_stage (s := { s with
      kernel := kernel
      writes := s.writes ++ [(some s.offset, ((data.val.drop s.offset).take s.length).take n)] })
      hdata hfd hcalls htiled' hlength hle fun h => absurd hpos (by omega)
    have hbefore : s.rank data = s.length + 2 := by
      rw [rank, phase]
    refine ⟨hstage, Nat.lt_of_lt_of_le hrank ?_⟩
    rw [hbefore]
  | @closed writeErr ok phase =>
    rw [phase] at h
    obtain ⟨htiled, rfl, hcalls⟩ := h
    obtain rfl : ok = true := hr
    have hbefore : s.rank data = 1 := by
      rw [rank, phase]
    refine ⟨⟨hdata, htiled, congrArg (· ++ [true]) hcalls⟩, ?_⟩
    rw [hbefore]
    exact Nat.one_pos

theorem enabled (h : s.Stage data) :
    (s.calls = [true] ∧ Tiled data.val data.val.length s.kernel.file s.writes) ∨
      ∃ r s', r.Ok ∧ s.step r = some s' := by
  obtain ⟨hdata, h⟩ := h
  unfold step
  cases phase : s.phase with
  | opening =>
    refine .inr ⟨.opened (some 0), ?_⟩
    dsimp only
    rw [if_pos (by decide), hdata]
    exact ⟨_, rfl, rfl⟩
  | calling t =>
    rw [phase] at h
    obtain ⟨htiled, hlength, hpos, -, rfl, -⟩ := h
    have hne : (data.val.drop s.offset).take s.length ≠ [] := by
      rw [← List.length_pos_iff_ne_nil, List.length_take, List.length_drop]
      omega
    obtain ⟨n, r, hwrite⟩ := s.kernel.write_enabled hne (some s.offset)
    refine .inr ⟨.wrote (some n), ?_⟩
    dsimp only
    rw [hdata]
    dsimp only [Option.bind_some, Option.map_some, Int.toNat_natCast]
    rw [hwrite]
    exact ⟨_, rfl, rfl⟩
  | ticking =>
    refine .inr ⟨.tick, ?_⟩
    dsimp only
    rw [hdata]
    exact ⟨_, trivial, rfl⟩
  | closing writeErr => exact .inr ⟨.closed true, _, rfl, rfl⟩
  | finished =>
    rw [phase] at h
    exact .inl ⟨h.2, h.1⟩

/-- However the data is divided by the writes, all of it is written. -/
theorem writes_data (file : Bytes) (data : Contents) :
    Lib.Inevitable step (fun _ r => r.Ok)
      (fun s => s.calls = [true] ∧ Tiled data.val data.val.length s.kernel.file s.writes)
      (new file (some data)) :=
  Lib.inevitable_of_rank (rank data) (I := Stage data) ⟨rfl, rfl, rfl⟩
    (fun _ _ _ h hr hs => (step_stage h hr hs).1) (fun _ h => enabled h)
    (fun _ _ _ h hr hs => (step_stage h hr hs).2)

end WriteFile

/-! ### `readFile` -/

namespace ReadFile
variable {memory : ℕ → UInt8} {toString : Option (Bytes → Option JSString)} {content : Bytes}
  {s s' : ReadFile}

/-- Where `readFile` is when no call has failed. -/
inductive Place (toString : Option (Bytes → Option JSString)) (content : Bytes) (s : ReadFile) :
    Prop
  | opening (stream : s.stream.Opening) (calls : s.calls = [])
  | reading {fd length : ℕ} (stream : s.stream.Reading fd length) (calls : s.calls = [])
  | past {fd : ℕ} (stream : s.stream.Over (some fd) (ReadStream.closings (some fd)))
      (calls : s.calls = [encoded toString content])

structure Stage (toString : Option (Bytes → Option JSString)) (content : Bytes) (s : ReadFile) :
    Prop where
  file : s.kernel.file = content
  offset : s.kernel.offset ≤ content.length
  gathered : s.Gathered (content.take s.kernel.offset)
  place : s.Place toString content

/-- How many replies are needed at most. -/
def rank (content : Bytes) (s : ReadFile) : ℕ :=
  if s.stream.opening then content.length + 4
  else if s.stream.reads.isEmpty then s.stream.closes - s.closed
  else content.length - s.kernel.offset + 3

theorem Place.waiting (h : s.Place toString content) : Waiting s.stream := by
  cases h with
  | opening stream => exact .opening stream
  | reading stream => exact .reading stream
  | past stream => exact .past stream id

theorem rank_opening (h : s.stream.Opening) : s.rank content = content.length + 4 := by
  rw [rank, if_pos h.opening]

theorem rank_reading {fd length : ℕ} (h : s.stream.Reading fd length) :
    s.rank content = content.length - s.kernel.offset + 3 := by
  rw [rank, if_neg (by rw [h.opening]; exact Bool.false_ne_true), if_neg (by
    rw [h.reads]
    exact Bool.false_ne_true)]

variable (content) in
theorem rank_over {fd : Option ℕ} {closes : ℕ} (h : s.stream.Over fd closes) :
    s.rank content = closes - s.closed := by
  rw [rank, if_neg (by rw [h.opening]; exact Bool.false_ne_true), if_pos (by rw [h.reads]; rfl),
    h.closes]

theorem closings_le (fd : Option ℕ) : ReadStream.closings fd ≤ 1 := by
  unfold ReadStream.closings
  split
  · exact Nat.le_refl 1
  · exact Nat.zero_le 1

/-- There was no callback yet. -/
theorem Place.calls (h : s.Place toString content)
    (hbusy : s.stream.opening = true ∨ s.stream.reads ≠ []) : s.calls = [] := by
  cases h with
  | opening _ calls => exact calls
  | reading _ calls => exact calls
  | past stream =>
    rcases hbusy with hbusy | hbusy
    · cases stream.opening.symm.trans hbusy
    · exact absurd stream.reads hbusy

theorem step_stage (h : s.Stage toString content) {t : Turn} (ht : t.reply.Ok)
    (hs : s.step memory toString t = some s') :
    s'.Stage toString content ∧ s'.rank content < s.rank content := by
  obtain ⟨hfile, hoffset, hgathered, hplace⟩ := h
  obtain ⟨pool, reply⟩ := t
  have heffect : Effect memory toString s reply s' := step_effect hplace.waiting hgathered hs
  cases heffect with
  | openFailed => cases ht
  | opened before after =>
    have hcalls := hplace.calls (.inl before.opening)
    refine ⟨⟨hfile, hoffset, ⟨hgathered.nread, hgathered.pieces⟩, .reading after hcalls⟩, ?_⟩
    rw [rank_reading after, rank_opening before]
    dsimp only
    omega
  | readFailed => cases ht
  | @read stream fd length n length' bytes kernel before hread hn after =>
    have hcalls := hplace.calls (.inr (by rw [before.reads]; exact List.cons_ne_nil _ _))
    obtain ⟨hbytes, hlength, -, rfl, -⟩ := Kernel.read_some hread
    rw [hfile] at hbytes
    have hle : s.kernel.offset + n ≤ content.length := by
      rw [hbytes, List.length_take, List.length_drop] at hlength
      omega
    have hgathered' : ReadFile.Gathered (content.take s.kernel.offset ++ bytes) { s with
        stream := stream
        kernel := { s.kernel with offset := s.kernel.offset + n }
        buffers := s.buffers ++ [bytes]
        nread := s.nread + n } :=
      hgathered.snoc (by omega) rfl (congrArg (s.nread + ·) hlength.symm)
    rw [hbytes, ← List.take_add] at hgathered'
    refine ⟨⟨hfile, hle, hbytes ▸ hgathered', .reading after hcalls⟩, ?_⟩
    rw [rank_reading after, rank_reading before]
    dsimp only
    omega
  | @ended stream fd length bytes buffer kernel before hread hbuffer after =>
    have hcalls := hplace.calls (.inr (by rw [before.reads]; exact List.cons_ne_nil _ _))
    obtain ⟨-, -, -, rfl, hend⟩ := Kernel.read_some hread
    have hall : content.length ≤ s.kernel.offset := by
      rcases hend rfl with hzero | hend
      · exact absurd hzero (Nat.ne_of_gt before.length)
      · rw [hfile] at hend
        exact hend
    have hcopied := hgathered.copied memory
    rw [List.take_of_length_le hall, hbuffer] at hcopied
    obtain rfl := Except.ok.inj hcopied
    refine ⟨⟨hfile, hoffset, ⟨hgathered.nread, hgathered.pieces⟩, .past after ?_⟩, ?_⟩
    · exact congrArg (· ++ [_]) hcalls
    · rw [rank_over _ after, rank_reading before]
      have hone := closings_le (some fd)
      dsimp only
      omega
  | closed before hlt =>
    cases hplace with
    | opening stream => cases stream.opening.symm.trans before.1
    | reading stream => cases stream.reads.symm.trans before.2
    | past stream calls =>
      refine ⟨⟨hfile, hoffset, ⟨hgathered.nread, hgathered.pieces⟩, .past stream calls⟩, ?_⟩
      have hafter := rank_over content (s := { s with closed := s.closed + 1 }) stream
      have hcloses := stream.closes
      rw [hafter, rank_over content stream]
      dsimp only
      omega
  | closeFailed => cases ht

variable (memory) in
theorem enabled (h : s.Stage toString content) :
    (s.calls = [encoded toString content] ∧ ∀ t, s.step memory toString t = none) ∨
      ∃ t s', t.reply.Ok ∧ s.step memory toString t = some s' := by
  obtain ⟨hfile, hoffset, hgathered, hplace⟩ := h
  have hwaiting := hplace.waiting
  cases hplace with
  | opening stream =>
    refine .inr ⟨⟨none, .opened (some 0)⟩, ?_⟩
    dsimp only [step, ReadStream.step]
    rw [stream.opening, stream.stack]
    exact ⟨_, rfl, rfl⟩
  | @reading fd length stream =>
    obtain ⟨n, ⟨bytes, kernel⟩, hread⟩ := s.kernel.read_enabled length
    obtain ⟨-, hlength, hle, -, -⟩ := Kernel.read_some hread
    have hfits : ∀ b ∈ some bytes, b.length ≤ length := by
      intro b hb
      cases hb
      omega
    refine .inr ⟨⟨none, .read (some n)⟩, ?_⟩
    have hcompleted := stream.completed none hfits
    dsimp only [step]
    rw [stream.reads]
    dsimp only [getOffset, Option.filter_none]
    rw [hread]
    dsimp only [Option.bind_some]
    rw [← stream.reads, hcompleted]
    exact ⟨_, rfl, rfl⟩
  | @past fd stream calls =>
    by_cases hlt : s.closed < s.stream.closes
    · refine .inr ⟨⟨none, .closed true⟩, ?_⟩
      dsimp only [step]
      rw [if_pos hlt]
      exact ⟨_, rfl, rfl⟩
    · refine .inl ⟨calls, fun t => ?_⟩
      by_contra hne
      obtain ⟨s', hs⟩ := Option.ne_none_iff_exists'.mp hne
      obtain ⟨pool, reply⟩ := t
      have heffect : Effect memory toString s reply s' := step_effect hwaiting hgathered hs
      cases heffect with
      | openFailed before => cases stream.opening.symm.trans before.opening
      | opened before => cases stream.opening.symm.trans before.opening
      | readFailed before => cases stream.reads.symm.trans before.reads
      | read before => cases stream.reads.symm.trans before.reads
      | ended before => cases stream.reads.symm.trans before.reads
      | closed _ h => exact hlt h
      | closeFailed h => exact hlt h

/-- However the file is divided by the reads, all of it is returned. -/
theorem returns_file (content : Bytes) :
    Lib.Inevitable (step memory toString) (fun _ t => t.reply.Ok)
      (fun s => s.calls = [encoded toString content] ∧ ∀ t, s.step memory toString t = none)
      (new content) := by
  have hnew : (new content).Stage toString content := by
    refine ⟨rfl, Nat.zero_le _, ⟨rfl, ⟨nofun, rfl⟩⟩, .opening ?_ rfl⟩
    exact ⟨⟨rfl, rfl, rfl, rfl, rfl, Nat.zero_lt_succ _, rfl, rfl, rfl⟩, rfl, rfl, rfl, rfl⟩
  exact Lib.inevitable_of_rank (rank content) hnew (fun _ _ _ h ht hs => (step_stage h ht hs).1)
    (fun _ h => enabled memory h) (fun _ _ _ h ht hs => (step_stage h ht hs).2)

end ReadFile

/-- `data` is in the file, and each write was at its own position. -/
structure Wrote (data file : Bytes) (writes : List (Option ℕ × Bytes)) : Prop where
  file : file = data
  places : ∀ w ∈ writes, ∃ q, w.1 = some q ∧ w.2 = (data.drop q).take w.2.length

theorem Tiled.wrote {data file : Bytes} {writes : List (Option ℕ × Bytes)}
    (h : Tiled data data.length file writes) : Wrote data file writes :=
  ⟨by rw [h.file, List.take_length], h.places⟩

/-- As long as no call fails, both forms return the whole file or write all of the data, however
many bytes each call reads or writes. -/
theorem tiles (memory : ℕ → UInt8) (toString : Option (Bytes → Option JSString))
    (content : Bytes) (data : Contents) :
    Lib.Inevitable (ReadFileSync.step memory toString) (fun _ r => r.Ok)
      (fun s => s.outcome = some (encoded toString content)) (.new memory content) ∧
    Lib.Inevitable (ReadFile.step memory toString) (fun _ t => t.reply.Ok)
      (fun s => s.calls = [encoded toString content] ∧ ∀ t, s.step memory toString t = none)
      (.new content) ∧
    Lib.Inevitable WriteFileSync.step (fun _ r => r.Ok)
      (fun s => s.outcome = some true ∧ Wrote data.val s.kernel.file s.writes)
      (.new content (some data)) ∧
    Lib.Inevitable WriteFile.step (fun _ r => r.Ok)
      (fun s => s.calls = [true] ∧ Wrote data.val s.kernel.file s.writes)
      (.new content (some data)) :=
  ⟨ReadFileSync.returns_file content, ReadFile.returns_file content,
    (WriteFileSync.writes_data content data).mono fun _ h => ⟨h.1, h.2.wrote⟩,
    (WriteFile.writes_data content data).mono fun _ h => ⟨h.1, h.2.wrote⟩⟩

end NodeJS.Fs
