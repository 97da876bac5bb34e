import NodeJS.Fs.ReadFile

/-! Whether `readFile`, `writeFile` and their synchronous forms close the file that they opened. -/
namespace NodeJS.Fs

/-- The file is closed once, and that before the function returns, throws or calls back, which it
does once. -/
structure Tidy (a : Account) : Prop where
  closes : a.closes ≤ 1
  ends : a.ends.length ≤ 1
  closed : a.opened = true → ∀ c ∈ a.ends, c = 1

theorem tidy_running {opened : Bool} {closes : ℕ} :
    Tidy ⟨opened, closes, []⟩ ↔ closes ≤ 1 :=
  ⟨fun h => h.closes, fun h => ⟨h, Nat.zero_le 1, nofun⟩⟩

theorem tidy_finish {opened : Bool} {closes : ℕ} :
    Tidy (Account.finish ⟨opened, closes, []⟩) ↔ closes ≤ 1 ∧ (opened = true → closes = 1) := by
  constructor
  · intro h
    exact ⟨h.closes, fun ho => h.closed ho closes List.mem_cons_self⟩
  · rintro ⟨hle, hone⟩
    refine ⟨hle, Nat.le_refl 1, fun ho c hc => ?_⟩
    obtain rfl := List.mem_singleton.mp hc
    exact hone ho

/-- The data is a buffer or can be made one when the file has been opened. -/
def Converts (data : Option Contents) (r : Reply) : Prop :=
  ∀ fd, r = .opened (some fd) → data.isSome

/-! ### The synchronous forms -/

def SyncPhase.Held (phase : SyncPhase) (a : Account) : Prop :=
  match phase with
  | .opening => a = .new
  | .calling _ => a = ⟨true, 0, []⟩
  | .closing => a = ⟨true, 1, []⟩
  | .finished => True

namespace ReadFileSync
variable {memory : ℕ → UInt8} {toString : Option (Bytes → Option JSString)}
  {s s' : ReadFileSync}

structure Held (s : ReadFileSync) : Prop where
  account : s.phase.Held s.account
  fd : ∀ t, s.phase = .calling t → s.fd < 2 ^ 31

variable (memory) in
theorem round_held (hfd : s.fd < 2 ^ 31) (haccount : s.account = ⟨true, 0, []⟩) :
    (s.round memory).Held ∧ (s.round memory).account = ⟨true, 0, []⟩ := by
  have hheld : s.push.account = ⟨true, 0, []⟩ := (push_account s).trans haccount
  rw [round_eq memory hfd]
  refine ⟨⟨hheld, fun _ _ => ?_⟩, hheld⟩
  show s.push.fd < 2 ^ 31
  rw [push_fd]
  exact hfd

attribute [local irreducible] round

/-- Nothing but a read that fails is in the way of `closeSync`. -/
theorem step_tidy (h : s.Held) {r : Reply} (hs : s.step memory toString r = some s') :
    s'.Held ∧ (Tidy s'.account ↔ r ≠ .read none) := by
  obtain ⟨haccount, hfd⟩ := h
  cases step_effect hs with
  | openFailed phase =>
    rw [phase] at haccount
    have hafter : (s.finish none).account = Account.finish ⟨false, 0, []⟩ :=
      congrArg Account.finish haccount
    rw [hafter, tidy_finish]
    exact ⟨⟨trivial, nofun⟩, iff_of_true ⟨Nat.zero_le 1, nofun⟩ nofun⟩
  | @opened fd phase hfd =>
    rw [phase] at haccount
    have hopened : { s.account with opened := true } = (⟨true, 0, []⟩ : Account) := by
      rw [haccount]
      rfl
    obtain ⟨hheld, hafter⟩ := round_held memory (s := { s with
      fd := fd, account := { s.account with opened := true } }) hfd hopened
    refine ⟨hheld, ?_⟩
    rw [hafter, tidy_running]
    exact iff_of_true (Nat.zero_le 1) nofun
  | readFailed phase =>
    rw [phase] at haccount
    have hafter : (s.finish none).account = Account.finish ⟨true, 0, []⟩ :=
      congrArg Account.finish haccount
    rw [hafter, tidy_finish]
    exact ⟨⟨trivial, nofun⟩,
      iff_of_false (fun h => absurd (h.2 rfl) Nat.zero_ne_one) fun h => h rfl⟩
  | @read t n bytes kernel phase hread hn =>
    rw [phase] at haccount
    obtain ⟨hheld, hafter⟩ := round_held memory (s := { s with
      kernel := kernel, lastRead := n, buffer := bytes ++ s.buffer.drop n }) (hfd t phase) haccount
    refine ⟨hheld, ?_⟩
    rw [hafter, tidy_running]
    exact iff_of_true (Nat.zero_le 1) nofun
  | last phase hread =>
    rw [phase] at haccount
    have hafter : { s.account with closes := s.account.closes + 1 } =
        (⟨true, 1, []⟩ : Account) := by
      rw [haccount]
    refine ⟨⟨hafter, nofun⟩, ?_⟩
    rw [hafter, tidy_running]
    exact iff_of_true (Nat.le_refl 1) nofun
  | closed phase =>
    rw [phase] at haccount
    have hafter : (s.finish (s.result memory toString)).account = Account.finish ⟨true, 1, []⟩ :=
      congrArg Account.finish haccount
    rw [hafter, tidy_finish]
    exact ⟨⟨trivial, nofun⟩, iff_of_true ⟨Nat.le_refl 1, fun _ => rfl⟩ nofun⟩
  | closeFailed phase =>
    rw [phase] at haccount
    have hafter : (s.finish none).account = Account.finish ⟨true, 1, []⟩ :=
      congrArg Account.finish haccount
    rw [hafter, tidy_finish]
    exact ⟨⟨trivial, nofun⟩, iff_of_true ⟨Nat.le_refl 1, fun _ => rfl⟩ nofun⟩

theorem tidy_iff (content : Bytes) (as : List Reply) :
    Lib.Along (step memory toString) (fun _ _ s' => Tidy s'.account) (new memory content) as ↔
      Lib.Along (step memory toString) (fun _ r _ => r ≠ .read none) (new memory content) as := by
  have hnew : (new memory content).Held := ⟨rfl, nofun⟩
  exact Lib.along_congr hnew (fun _ _ _ h hs => (step_tidy h hs).1)
    (fun _ _ _ h hs => (step_tidy h hs).2) as

end ReadFileSync

namespace WriteFileSync
variable {s s' : WriteFileSync}

structure Held (s : WriteFileSync) : Prop where
  account : s.phase.Held s.account
  fd : ∀ t, s.phase = .calling t → s.fd < 2 ^ 31

theorem round_held (hfd : s.fd < 2 ^ 31) (haccount : s.account = ⟨true, 0, []⟩) (data : Contents) :
    (s.round data.val).Held ∧ Tidy (s.round data.val).account := by
  unfold round
  split_ifs with hlt
  · rw [Calls.writeSync_ok hfd data.property hlt]
    refine ⟨⟨haccount, fun _ _ => hfd⟩, ?_⟩
    show Tidy s.account
    rw [haccount, tidy_running]
    exact Nat.zero_le 1
  · have hafter : { s.account with closes := s.account.closes + 1 } =
        (⟨true, 1, []⟩ : Account) := by
      rw [haccount]
    refine ⟨⟨hafter, nofun⟩, ?_⟩
    rw [hafter, tidy_running]

/-- Nothing is in the way of `closeSync` but a write that fails, or data that cannot be
converted. -/
theorem step_tidy (h : s.Held) {r : Reply} (hs : s.step r = some s') :
    s'.Held ∧ (Tidy s'.account ↔ r ≠ .wrote none ∧ Converts s.data r) := by
  obtain ⟨haccount, hfd⟩ := h
  cases step_effect hs with
  | openFailed phase =>
    rw [phase] at haccount
    have hafter : (s.finish false).account = Account.finish ⟨false, 0, []⟩ :=
      congrArg Account.finish haccount
    rw [hafter, tidy_finish]
    exact ⟨⟨trivial, nofun⟩, iff_of_true ⟨Nat.zero_le 1, nofun⟩ ⟨nofun, nofun⟩⟩
  | @noBuffer fd phase hdata =>
    rw [phase] at haccount
    have hafter : ((s.opened fd).finish false).account = Account.finish ⟨true, 0, []⟩ :=
      congrArg (fun a : Account => Account.finish { a with opened := true }) haccount
    rw [hafter, tidy_finish]
    refine ⟨⟨trivial, nofun⟩, iff_of_false (fun h => absurd (h.2 rfl) Nat.zero_ne_one) fun h => ?_⟩
    have hsome := h.2 fd rfl
    rw [hdata] at hsome
    cases hsome
  | @opened fd data phase hfd hdata =>
    rw [phase] at haccount
    have hopened : (s.opened fd).account = ⟨true, 0, []⟩ :=
      congrArg (fun a : Account => { a with opened := true }) haccount
    obtain ⟨hheld, htidy⟩ := round_held (s := s.opened fd) hfd hopened data
    refine ⟨hheld, iff_of_true htidy ⟨nofun, fun _ _ => ?_⟩⟩
    rw [hdata]
    rfl
  | writeFailed phase =>
    rw [phase] at haccount
    have hafter : (s.finish false).account = Account.finish ⟨true, 0, []⟩ :=
      congrArg Account.finish haccount
    rw [hafter, tidy_finish]
    exact ⟨⟨trivial, nofun⟩,
      iff_of_false (fun h => absurd (h.2 rfl) Nat.zero_ne_one) fun h => h.1 rfl⟩
  | @wrote t n data kernel phase hdata hwrite =>
    rw [phase] at haccount
    obtain ⟨hheld, htidy⟩ := round_held (s := { s with
      kernel := kernel
      written := s.written + n
      writes := s.writes ++ [(t.position.map Int.toNat,
        ((data.val.drop t.offset).take t.length).take n)] }) (hfd t phase) haccount data
    exact ⟨hheld, iff_of_true htidy ⟨nofun, nofun⟩⟩
  | @closed ok phase =>
    rw [phase] at haccount
    have hafter : (s.finish ok).account = Account.finish ⟨true, 1, []⟩ :=
      congrArg Account.finish haccount
    rw [hafter, tidy_finish]
    exact ⟨⟨trivial, nofun⟩, iff_of_true ⟨Nat.le_refl 1, fun _ => rfl⟩ ⟨nofun, nofun⟩⟩

theorem tidy_iff (file : Bytes) (data : Option Contents) (as : List Reply) :
    Lib.Along step (fun _ _ s' => Tidy s'.account) (new file data) as ↔
      Lib.Along step (fun s r _ => r ≠ .wrote none ∧ Converts s.data r) (new file data) as := by
  have hnew : (new file data).Held := ⟨rfl, nofun⟩
  exact Lib.along_congr hnew (fun _ _ _ h hs => (step_tidy h hs).1)
    (fun _ _ _ h hs => (step_tidy h hs).2) as

end WriteFileSync

/-! ### `writeFile` -/

namespace WriteFile
variable {s s' : WriteFile}

/-- What the account is while there is something to be done. -/
structure Held (s : WriteFile) : Prop where
  opening : s.phase = .opening → s.account = .new
  calling : ∀ t, s.phase = .calling t → s.account = ⟨true, 0, []⟩ ∧ s.fd < 2 ^ 31 ∧
    t.length = s.length ∧ ∀ data ∈ s.data, s.offset + s.length = data.val.length
  ticking : s.phase = .ticking → s.account = ⟨true, 0, []⟩ ∧ s.length = 0
  closing : ∀ e, s.phase = .closing e → s.account = ⟨true, 1, []⟩

theorem held_callback (s : WriteFile) (ok : Bool) : (s.callback ok).Held :=
  ⟨nofun, nofun, nofun, nofun⟩

theorem close_tidy (haccount : s.account = ⟨true, 0, []⟩) (writeErr : Bool) :
    (s.close writeErr).Held ∧ Tidy (s.close writeErr).account := by
  have hafter : (s.close writeErr).account = ⟨true, 1, []⟩ :=
    congrArg (fun a : Account => { a with closes := a.closes + 1 }) haccount
  refine ⟨⟨nofun, nofun, nofun, fun _ _ => hafter⟩, ?_⟩
  rw [hafter, tidy_running]

theorem writeAll_tidy (hfd : s.fd < 2 ^ 31) (haccount : s.account = ⟨true, 0, []⟩)
    {data : Contents} (hdata : s.data = some data) {offset length : ℕ}
    (hlength : offset + length = data.val.length) :
    (s.writeAll data.val offset length).Held ∧
      Tidy (s.writeAll data.val offset length).account := by
  have htidy : Tidy s.account := by
    rw [haccount, tidy_running]
    exact Nat.zero_le 1
  unfold writeAll
  cases length with
  | zero =>
    rw [Nat.cast_zero, Calls.write_empty]
    exact ⟨⟨nofun, nofun, fun _ => ⟨haccount, rfl⟩, nofun⟩, htidy⟩
  | succ m =>
    rw [Calls.write_ok hfd data.property m.succ_pos hlength]
    refine ⟨⟨nofun, fun t ht => ?_, nofun, nofun⟩, htidy⟩
    cases ht
    refine ⟨haccount, hfd, rfl, fun data' hdata' => ?_⟩
    cases hdata.symm.trans hdata'
    exact hlength

/-- Nothing is in the way of `close` but data that cannot be converted. -/
theorem step_tidy (h : s.Held) {r : Reply} (hs : s.step r = some s') :
    s'.Held ∧ (Tidy s'.account ↔ Converts s.data r) := by
  cases step_effect hs with
  | openFailed phase =>
    have hafter : (s.callback false).account = Account.finish ⟨false, 0, []⟩ :=
      congrArg Account.finish (h.opening phase)
    rw [hafter, tidy_finish]
    exact ⟨held_callback s false, iff_of_true ⟨Nat.zero_le 1, nofun⟩ nofun⟩
  | @noBuffer fd phase hdata =>
    have hafter : (s.opened fd).throw.account = Account.finish ⟨true, 0, []⟩ :=
      congrArg (fun a : Account => Account.finish { a with opened := true }) (h.opening phase)
    rw [hafter, tidy_finish]
    refine ⟨⟨nofun, nofun, nofun, nofun⟩,
      iff_of_false (fun h => absurd (h.2 rfl) Nat.zero_ne_one) fun h => ?_⟩
    have hsome := h fd rfl
    rw [hdata] at hsome
    cases hsome
  | @opened fd data phase hfd hdata =>
    have hopened : (s.opened fd).account = ⟨true, 0, []⟩ :=
      congrArg (fun a : Account => { a with opened := true }) (h.opening phase)
    obtain ⟨hheld, htidy⟩ :=
      writeAll_tidy (s := s.opened fd) hfd hopened hdata (Nat.zero_add data.val.length)
    refine ⟨hheld, iff_of_true htidy fun _ _ => ?_⟩
    rw [hdata]
    rfl
  | ticked phase hdata =>
    obtain ⟨haccount, hlength⟩ := h.ticking phase
    obtain ⟨hheld, htidy⟩ := close_tidy haccount false
    rw [afterWrite, if_pos hlength.symm]
    exact ⟨hheld, iff_of_true htidy nofun⟩
  | @writeFailed t phase =>
    obtain ⟨hheld, htidy⟩ := close_tidy (h.calling t phase).1 true
    exact ⟨hheld, iff_of_true htidy nofun⟩
  | @wrote t n data kernel phase hdata hwrite =>
    obtain ⟨haccount, hfd, hlength, hdata'⟩ := h.calling t phase
    have hsum := hdata' data hdata
    have hle := (Kernel.write_le hwrite).2
    rw [List.length_take] at hle
    unfold afterWrite
    split_ifs with hall
    · obtain ⟨hheld, htidy⟩ := close_tidy (s := { s with
        kernel := kernel
        writes := s.writes ++ [(t.position.map Int.toNat,
          ((data.val.drop t.offset).take t.length).take n)] }) haccount false
      exact ⟨hheld, iff_of_true htidy nofun⟩
    · obtain ⟨hheld, htidy⟩ := writeAll_tidy (s := { s with
        kernel := kernel
        writes := s.writes ++ [(t.position.map Int.toNat,
          ((data.val.drop t.offset).take t.length).take n)] }) hfd haccount hdata
        (by omega : s.offset + n + (s.length - n) = data.val.length)
      exact ⟨hheld, iff_of_true htidy nofun⟩
  | @closed writeErr ok phase =>
    have hafter : (s.callback (!writeErr && ok)).account = Account.finish ⟨true, 1, []⟩ :=
      congrArg Account.finish (h.closing writeErr phase)
    rw [hafter, tidy_finish]
    exact ⟨held_callback s _, iff_of_true ⟨Nat.le_refl 1, fun _ => rfl⟩ nofun⟩

theorem tidy_iff (file : Bytes) (data : Option Contents) (as : List Reply) :
    Lib.Along step (fun _ _ s' => Tidy s'.account) (new file data) as ↔
      Lib.Along step (fun s r _ => Converts s.data r) (new file data) as := by
  have hnew : (new file data).Held := ⟨fun _ => rfl, nofun, nofun, nofun⟩
  exact Lib.along_congr hnew (fun _ _ _ h hs => (step_tidy h hs).1)
    (fun _ _ _ h hs => (step_tidy h hs).2) as

end WriteFile

/-! ### `readFile` -/

namespace ReadFile
variable {memory : ℕ → UInt8} {toString : Option (Bytes → Option JSString)} {s s' : ReadFile}

def account (s : ReadFile) : Account := ⟨s.opened, s.stream.closes, s.ends⟩

/-- The first callback is made before the file is closed. -/
inductive Held (s : ReadFile) : Prop
  | opening (stream : s.stream.Opening) (opened : s.opened = false) (ends : s.ends = [])
  | reading {fd length : ℕ} (stream : s.stream.Reading fd length) (opened : s.opened = true)
      (ends : s.ends = [])
  | past {fd : Option ℕ} {closes : ℕ} (stream : s.stream.Over fd closes)
      (hfd : 0 < closes → 0 < ReadStream.closings fd) (opened : s.opened = false → closes = 0)
      (ends : ∃ rest, s.ends = 0 :: rest)

theorem Held.waiting (h : s.Held) : Waiting s.stream := by
  cases h with
  | opening stream => exact .opening stream
  | reading stream => exact .reading stream
  | past stream hfd => exact .past stream hfd

theorem Held.of_opening (h : s.Held) (hstream : s.stream.Opening) :
    s.opened = false ∧ s.ends = [] := by
  cases h with
  | opening _ opened ends => exact ⟨opened, ends⟩
  | reading stream => cases stream.opening.symm.trans hstream.opening
  | past stream => cases stream.opening.symm.trans hstream.opening

theorem Held.of_reading (h : s.Held) {fd length : ℕ} (hstream : s.stream.Reading fd length) :
    s.opened = true ∧ s.ends = [] := by
  cases h with
  | opening stream => cases stream.opening.symm.trans hstream.opening
  | reading _ opened ends => exact ⟨opened, ends⟩
  | past stream => cases stream.reads.symm.trans hstream.reads

theorem Held.of_over (h : s.Held) (hstream : s.stream.opening = false ∧ s.stream.reads = []) :
    (s.opened = false → s.stream.closes = 0) ∧ ∃ rest, s.ends = 0 :: rest := by
  cases h with
  | opening stream => cases stream.opening.symm.trans hstream.1
  | reading stream => cases stream.reads.symm.trans hstream.2
  | past stream _ opened ends =>
    rw [stream.closes]
    exact ⟨opened, ends⟩

theorem step_held (h : s.Held) {bytes : Bytes} (hbytes : s.Gathered bytes) {t : Turn}
    (hs : s.step memory toString t = some s') : s'.Held ∧ ∃ bytes, s'.Gathered bytes := by
  have heffect := step_effect h.waiting hbytes hs
  have hkept : s'.buffers = s.buffers → s'.nread = s.nread → ∃ bytes, s'.Gathered bytes := by
    intro hbuffers hnread
    exact ⟨bytes, hnread ▸ hbytes.nread, hbuffers ▸ hbytes.pieces⟩
  obtain ⟨pool, reply⟩ := t
  dsimp only at heffect
  cases heffect with
  | openFailed before after =>
    obtain ⟨-, hends⟩ := h.of_opening before
    exact ⟨.past after nofun (fun _ => rfl) ⟨[], congrArg (· ++ [0]) hends⟩, hkept rfl rfl⟩
  | opened before after => exact ⟨.reading after rfl (h.of_opening before).2, hkept rfl rfl⟩
  | readFailed before after =>
    obtain ⟨hopened, hends⟩ := h.of_reading before
    exact ⟨.past after id (fun h => by cases hopened.symm.trans h)
      ⟨[], congrArg (· ++ [0]) hends⟩, hkept rfl rfl⟩
  | read before hread hn after =>
    obtain ⟨hopened, hends⟩ := h.of_reading before
    obtain ⟨-, hlength, -⟩ := Kernel.read_some hread
    exact ⟨.reading after hopened hends,
      _, hbytes.snoc (by omega) rfl (congrArg (s.nread + ·) hlength.symm)⟩
  | ended before hread hbuffer after =>
    obtain ⟨hopened, hends⟩ := h.of_reading before
    exact ⟨.past after id (fun h => by cases hopened.symm.trans h)
      ⟨[], congrArg (· ++ [0]) hends⟩, hkept rfl rfl⟩
  | closed before hlt =>
    cases h with
    | opening stream => cases stream.opening.symm.trans before.1
    | reading stream => cases stream.reads.symm.trans before.2
    | past stream hfd opened ends => exact ⟨.past stream hfd opened ends, hkept rfl rfl⟩
  | closeFailed hlt before after =>
    obtain ⟨hopened, rest, hends⟩ := h.of_over ⟨before.opening, before.reads⟩
    refine ⟨.past after (fun _ => Nat.one_pos) (fun h => ?_)
      ⟨rest ++ [s.stream.closes], congrArg (· ++ [s.stream.closes]) hends⟩, hkept rfl rfl⟩
    rw [hopened h] at hlt
    cases hlt

/-- What a reply makes of the account. -/
inductive Entry (s : ReadFile) : Reply → Account → Prop
  | openFailed : Entry s (.opened none) ⟨false, 0, [0]⟩
  | opened (fd : ℕ) : Entry s (.opened (some fd)) ⟨true, 0, []⟩
  | read {n : ℕ} (hn : 0 < n) : Entry s (.read (some n)) ⟨true, 0, []⟩
  | past {r : Reply} {fd : ℕ} (hr : r = .read none ∨ r = .read (some 0))
      (hfd : s.stream.fd = some fd) : Entry s r ⟨true, ReadStream.closings (some fd), [0]⟩
  | closed : Entry s (.closed true) s.account
  | closeFailed {closes : ℕ} {rest : List ℕ} (before : s.account = ⟨true, closes, 0 :: rest⟩) :
      Entry s (.closed false) ⟨true, closes + 1, 0 :: rest ++ [closes]⟩

theorem effect_entry (h : s.Held) {r : Reply} (heffect : Effect memory toString s r s') :
    Entry s r s'.account := by
  cases heffect with
  | openFailed before after =>
    rw [account, after.closes, (h.of_opening before).2]
    exact .openFailed
  | @opened stream fd length before after =>
    rw [account, after.closes, (h.of_opening before).2]
    exact .opened fd
  | readFailed before after =>
    obtain ⟨hopened, hends⟩ := h.of_reading before
    rw [account, after.closes, hopened, hends]
    exact .past (.inl rfl) before.fd
  | read before hread hn after =>
    obtain ⟨hopened, hends⟩ := h.of_reading before
    rw [account, after.closes, hopened, hends]
    exact .read hn
  | ended before hread hbuffer after =>
    obtain ⟨hopened, hends⟩ := h.of_reading before
    rw [account, after.closes, hopened, hends]
    exact .past (.inr rfl) before.fd
  | closed before hlt => exact .closed
  | closeFailed hlt before after =>
    obtain ⟨hopened, rest, hends⟩ := h.of_over ⟨before.opening, before.reads⟩
    have hopened' : s.opened = true := by
      cases ho : s.opened with
      | true => rfl
      | false =>
        rw [hopened ho] at hlt
        cases hlt
    rw [account, after.closes, hopened', hends]
    refine .closeFailed ?_
    rw [account, hopened', hends]

/-- It neither fails to read nor gets to the end. -/
def Unfinished (r : Reply) : Prop := r ≠ .read none ∧ r ≠ .read (some 0)

/-- The callback is called before `close`. -/
theorem entry_tidy (htidy : Tidy s.account) {r : Reply} {a : Account} (h : Entry s r a) :
    Tidy a ↔ Unfinished r := by
  cases h with
  | openFailed => exact iff_of_true ⟨Nat.zero_le 1, Nat.le_refl 1, nofun⟩ ⟨nofun, nofun⟩
  | opened fd => exact iff_of_true (tidy_running.mpr (Nat.zero_le 1)) ⟨nofun, nofun⟩
  | @read n hn =>
    refine iff_of_true (tidy_running.mpr (Nat.zero_le 1)) ⟨nofun, fun h => ?_⟩
    cases h
    cases hn
  | past hr hfd =>
    refine iff_of_false (fun h => ?_) fun h => hr.elim h.1 h.2
    cases h.closed rfl 0 List.mem_cons_self
  | closed => exact iff_of_true htidy ⟨nofun, nofun⟩
  | closeFailed before =>
    have hclosed := htidy.closed
    rw [before] at hclosed
    cases hclosed rfl 0 List.mem_cons_self

/-- The file is closed once and there is one callback, in whatever order. -/
structure Cleaned (a : Account) : Prop where
  closes : a.closes ≤ 1
  ends : a.ends.length ≤ 1
  closed : a.opened = true → a.ends ≠ [] → a.closes = 1

/-- It is not the file with descriptor 0 whose reading is over, and no `close` fails. -/
def Closable (s : ReadFile) (r : Reply) : Prop :=
  (r = .read none ∨ r = .read (some 0) → s.stream.fd ≠ some 0) ∧ r ≠ .closed false

theorem entry_cleaned (hcleaned : Cleaned s.account) {r : Reply} {a : Account}
    (h : Entry s r a) : Cleaned a ↔ Closable s r := by
  cases h with
  | openFailed =>
    exact iff_of_true ⟨Nat.zero_le 1, Nat.le_refl 1, nofun⟩ ⟨fun h => by simp at h, nofun⟩
  | opened fd =>
    refine iff_of_true ⟨Nat.zero_le 1, Nat.zero_le 1, fun _ h => absurd rfl h⟩ ⟨fun h => ?_, nofun⟩
    simp at h
  | @read n hn =>
    refine iff_of_true ⟨Nat.zero_le 1, Nat.zero_le 1, fun _ h => absurd rfl h⟩ ⟨fun h => ?_, nofun⟩
    simp at h
    omega
  | @past _ fd hr hfd =>
    cases fd with
    | zero =>
      refine iff_of_false (fun h => ?_) fun h => h.1 hr hfd
      cases h.closed rfl (List.cons_ne_nil _ _)
    | succ k =>
      refine iff_of_true ⟨Nat.le_refl 1, Nat.le_refl 1, fun _ _ => rfl⟩ ⟨fun _ h => ?_, ?_⟩
      · cases hfd.symm.trans h
      · rcases hr with rfl | rfl <;> exact nofun
  | closed => exact iff_of_true hcleaned ⟨fun h => by simp at h, nofun⟩
  | closeFailed before =>
    refine iff_of_false (fun h => ?_) fun h => h.2 rfl
    have hends := h.ends
    simp at hends

/-- A property of the account that the replies decide. -/
theorem account_iff {P : Account → Prop} {Q : ReadFile → Reply → Prop} (hnew : P ⟨false, 0, []⟩)
    (hentry : ∀ {s : ReadFile}, P s.account → ∀ {r a}, Entry s r a → (P a ↔ Q s r))
    (content : Bytes) (as : List Turn) :
    Lib.Along (step memory toString) (fun _ _ s' => P s'.account) (new content) as ↔
      Lib.Along (step memory toString) (fun s t _ => Q s t.reply) (new content) as := by
  have hheld : (new content).Held :=
    .opening ⟨⟨rfl, rfl, rfl, rfl, rfl, Nat.zero_lt_succ _, rfl, rfl, rfl⟩, rfl, rfl, rfl, rfl⟩
      rfl rfl
  refine Lib.along_iff (I := fun s => s.Held ∧ ∃ bytes, s.Gathered bytes)
    (P := fun s => P s.account) (Q := fun s t => Q s t.reply)
    ⟨hheld, [], rfl, nofun, rfl⟩ hnew ?_ ?_ as
  · rintro s t s' ⟨h, bytes, hbytes⟩ hs
    exact step_held h hbytes hs
  · rintro s t s' ⟨h, bytes, hbytes⟩ hp hs
    exact hentry hp (effect_entry h (step_effect h.waiting hbytes hs))

end ReadFile

/-- In every run the file is closed once, and that before the only return, exception or callback, if
and only if: no read of `readFileSync` fails; no write of `writeFileSync` fails and the data can be
converted; the data of `writeFile` can be converted; `readFile` neither fails to read nor gets to
the end. Apart from the order `readFile` needs another descriptor than 0 and a `close` that does not
fail. -/
theorem cleanup_iff (memory : ℕ → UInt8) (toString : Option (Bytes → Option JSString))
    (content : Bytes) (data : Option Contents) (as : List Reply) (ts : List ReadFile.Turn) :
    (Lib.Along (ReadFileSync.step memory toString) (fun _ _ s' => Tidy s'.account)
        (.new memory content) as ↔
      Lib.Along (ReadFileSync.step memory toString) (fun _ r _ => r ≠ .read none)
        (.new memory content) as) ∧
    (Lib.Along WriteFileSync.step (fun _ _ s' => Tidy s'.account) (.new content data) as ↔
      Lib.Along WriteFileSync.step (fun s r _ => r ≠ .wrote none ∧ Converts s.data r)
        (.new content data) as) ∧
    (Lib.Along WriteFile.step (fun _ _ s' => Tidy s'.account) (.new content data) as ↔
      Lib.Along WriteFile.step (fun s r _ => Converts s.data r) (.new content data) as) ∧
    (Lib.Along (ReadFile.step memory toString) (fun _ _ s' => Tidy s'.account) (.new content) ts ↔
      Lib.Along (ReadFile.step memory toString) (fun _ t _ => ReadFile.Unfinished t.reply)
        (.new content) ts) ∧
    (Lib.Along (ReadFile.step memory toString) (fun _ _ s' => ReadFile.Cleaned s'.account)
        (.new content) ts ↔
      Lib.Along (ReadFile.step memory toString) (fun s t _ => s.Closable t.reply)
        (.new content) ts) :=
  ⟨ReadFileSync.tidy_iff content as, WriteFileSync.tidy_iff content data as,
    WriteFile.tidy_iff content data as,
    ReadFile.account_iff (tidy_running.mpr (Nat.zero_le 1)) ReadFile.entry_tidy content ts,
    ReadFile.account_iff ⟨Nat.zero_le 1, Nat.zero_le 1, nofun⟩ ReadFile.entry_cleaned content ts⟩

/-- The descriptor is lost when a read fails. -/
theorem cleanup_leaks : ∃ s : ReadFileSync,
    Lib.run (ReadFileSync.step (fun _ => 0) none) (.new (fun _ => 0) [])
      [.opened (some 3), .read none] = some s ∧
    s.account = ⟨true, 0, [0]⟩ ∧ ¬ Tidy s.account := by
  let s : ReadFileSync := { ReadFileSync.new (fun _ => 0) [] with
    fd := 3, account := ⟨true, 0, []⟩ }
  have hopened : (ReadFileSync.new (fun _ => 0) []).step (fun _ => 0) none (.opened (some 3)) =
      some (s.round fun _ => 0) := by
    unfold ReadFileSync.step
    exact if_pos (by decide : 3 < 2 ^ 31)
  have hround := ReadFileSync.round_eq (fun _ => 0) (s := s) (by decide)
  have haccount : (s.round fun _ => 0).account = ⟨true, 0, []⟩ := by
    rw [hround]
    rfl
  have hfailed : (s.round fun _ => 0).step (fun _ => 0) none (.read none) =
      some ((s.round fun _ => 0).finish none) := by
    rw [hround]
    rfl
  have hafter : ((s.round fun _ => 0).finish none).account = Account.finish ⟨true, 0, []⟩ :=
    congrArg Account.finish haccount
  refine ⟨(s.round fun _ => 0).finish none, ?_, hafter, fun h => ?_⟩
  · unfold Lib.run
    rw [hopened, Option.bind_some]
    unfold Lib.run
    rw [hfailed]
    rfl
  · rw [hafter, tidy_finish] at h
    cases h.2 rfl

end NodeJS.Fs
