import NodeJS.Buffer.Window

/-! The windows that `slice` cuts out, and chains of such calls. -/
namespace NodeJS

open Base64

inductive SliceFailure
  /-- `throw new Error('oob')` -/
  | oob
  /-- The engine refuses the length and the process ends. -/
  | fatal
  deriving DecidableEq

/-- The slicing form of `new Buffer(parent, length, offset)`. -/
def newWindow (parentLength : ℕ) (length offset : ℤ) : Except SliceFailure Window :=
  if int32Value length > kMaxLength then .error .fatal
  else .ok ⟨parentLength, offset, length⟩

/-- `Buffer.prototype.slice`. `SlowBuffer.prototype.slice` does this for the window that is all of
the memory. -/
def Window.slice (w : Window) (start : ℤ) (stop : Option ℤ) : Except SliceFailure Window :=
  let stop := stop.getD w.length
  if stop > w.length then .error .oob
  else if start > stop then .error .oob
  else newWindow w.parentLength (stop - start) (start + w.offset)

/-- The bytes that indexing reaches, by the conversions of `MakeFastBuffer`. -/
def Window.Reaches (w : Window) (i : ℤ) : Prop :=
  uint32Value w.offset ≤ i ∧ i < uint32Value w.offset + uint32Value w.length

/-- No byte can be read or written through `v` that could not be through `w`. -/
def Window.Within (v w : Window) : Prop :=
  (∀ i, v.Has i → w.Has i) ∧ ∀ i, v.Reaches i → w.Has i

/-- The windows that a chain of calls yields. After a call that throws the next one is made on
the same `Buffer`. -/
def Window.chain (w : Window) : List (ℤ × Option ℤ) → List Window
  | [] => []
  | (start, stop) :: calls =>
    match w.slice start stop with
    | .error _ => w.chain calls
    | .ok v => v :: v.chain calls

/-- Every call of a chain throws or yields a part of what it was made on. -/
def Window.ChainWithin (w : Window) : List (ℤ × Option ℤ) → Prop
  | [] => True
  | (start, stop) :: calls =>
    match w.slice start stop with
    | .error _ => w.ChainWithin calls
    | .ok v => v.Within w ∧ v.ChainWithin calls

/-- The arguments are refused, or they do not count from before the window. -/
def Window.SliceFits (w : Window) (start : ℤ) (stop : Option ℤ) : Prop :=
  let stop := stop.getD w.length
  w.length < stop ∨ stop < start ∨ kMaxLength < int32Value (stop - start) ∨
    0 ≤ start ∨ start = stop

def Window.ChainFits (w : Window) : List (ℤ × Option ℤ) → Prop
  | [] => True
  | (start, stop) :: calls =>
    w.SliceFits start stop ∧
      match w.slice start stop with
      | .error _ => w.ChainFits calls
      | .ok v => v.ChainFits calls

theorem Window.slice_ok_iff (w v : Window) (start : ℤ) (stop : Option ℤ) :
    w.slice start stop = .ok v ↔
      start ≤ stop.getD w.length ∧ stop.getD w.length ≤ w.length ∧
        int32Value (stop.getD w.length - start) ≤ kMaxLength ∧
        v = ⟨w.parentLength, start + w.offset, stop.getD w.length - start⟩ := by
  unfold Window.slice newWindow
  dsimp only
  split_ifs with h1 h2 h3
  · simp only [false_iff]
    omega
  · simp only [false_iff]
    omega
  · simp only [false_iff]
    omega
  · rw [Except.ok.injEq]
    constructor
    · intro hv
      exact ⟨by omega, by omega, by omega, hv.symm⟩
    · intro hv
      exact hv.2.2.2.symm

/-- `slice` of a Buffer with these bytes. -/
def sliceOf (bytes : Bytes) (start stop : ℤ) : Except SliceFailure Bytes :=
  if stop > bytes.length then .error .oob
  else if start > stop then .error .oob
  else .ok ((bytes.take stop.toNat).drop start.toNat)

/-- These are the bytes of the window that is cut out. -/
theorem Window.slice_bytes {w : Window} (hw : w.Inside) {parent : Bytes}
    (hparent : parent.length = w.parentLength) {start stop : ℤ} (hs : 0 ≤ start) :
    (w.slice start (some stop)).map (·.bytes parent) = sliceOf (w.bytes parent) start stop := by
  have hlength := hw.length_bytes hparent
  obtain ⟨ho, hn, hp, hk⟩ := hw
  unfold kMaxLength at hk
  unfold Window.slice sliceOf newWindow
  rw [hlength]
  dsimp only [Option.getD_some]
  by_cases hstop : stop > w.length
  · rw [if_pos hstop, if_pos hstop]
    rfl
  · rw [if_neg hstop, if_neg hstop]
    by_cases hstart : start > stop
    · rw [if_pos hstart, if_pos hstart]
      rfl
    · have hfits : ¬ int32Value (stop - start) > kMaxLength := by
        unfold int32Value kMaxLength
        omega
      rw [if_neg hstart, if_neg hstart, if_neg hfits]
      show Except.ok _ = _
      congr 1
      unfold Window.bytes
      dsimp only
      rw [List.take_take, List.drop_take, List.drop_drop]
      congr 1
      · omega
      · congr 1
        omega

/-- A window in order, or one without bytes anywhere. -/
def Window.Proper (w : Window) : Prop := w.Inside ∨ w.length = 0

theorem Window.within_of_fits {w v : Window} (hw : w.Proper) {start : ℤ} {stop : Option ℤ}
    (h : w.slice start stop = .ok v) (hfits : w.SliceFits start stop) :
    v.Within w ∧ v.Proper := by
  obtain ⟨hle, hlen, hmax, rfl⟩ := (slice_ok_iff w v start stop).mp h
  unfold SliceFits at hfits
  dsimp only at hfits
  generalize stop.getD w.length = stop at *
  have hcases : 0 ≤ start ∨ start = stop := by omega
  unfold Within Has Reaches Proper
  dsimp only
  by_cases heq : start = stop
  · have hz : uint32Value (stop - start) = 0 := by simp [uint32Value, heq]
    refine ⟨⟨?_, ?_⟩, Or.inr (by omega)⟩
    · intro i hi
      omega
    · intro i hi
      omega
  · have h0 : 0 ≤ start := hcases.resolve_right heq
    obtain ⟨ho, hn, hp, hk⟩ := hw.resolve_right (by omega)
    unfold kMaxLength at hk
    have h1 : uint32Value (start + w.offset) = start + w.offset := by
      unfold uint32Value
      omega
    have h2 : uint32Value (stop - start) = stop - start := by
      unfold uint32Value
      omega
    refine ⟨⟨?_, ?_⟩, Or.inl ⟨?_, ?_, ?_, ?_⟩⟩
    · intro i hi
      omega
    · intro i hi
      omega
    · dsimp only
      omega
    · dsimp only
      omega
    · dsimp only
      omega
    · unfold kMaxLength
      dsimp only
      omega

theorem Window.fits_of_within {w v : Window} {start : ℤ} {stop : Option ℤ}
    (h : w.slice start stop = .ok v) (hin : v.Within w) : w.SliceFits start stop := by
  obtain ⟨hle, hlen, hmax, rfl⟩ := (slice_ok_iff w v start stop).mp h
  unfold SliceFits
  dsimp only
  by_cases heq : start = stop.getD w.length
  · exact Or.inr (Or.inr (Or.inr (Or.inr heq)))
  · have hfirst := (hin.1 (start + w.offset) (by
      unfold Has
      dsimp only
      omega)).1
    omega

theorem Window.fits_of_error {w : Window} {start : ℤ} {stop : Option ℤ} {err : SliceFailure}
    (h : w.slice start stop = .error err) : w.SliceFits start stop := by
  unfold SliceFits
  dsimp only
  by_contra hno
  have hok := (slice_ok_iff w ⟨w.parentLength, start + w.offset, stop.getD w.length - start⟩
    start stop).mpr ⟨by omega, by omega, by omega, rfl⟩
  rw [hok] at h
  exact absurd h (by simp)

theorem Window.chainWithin_iff {w : Window} (hw : w.Proper) (calls : List (ℤ × Option ℤ)) :
    w.ChainWithin calls ↔ w.ChainFits calls := by
  induction calls generalizing w with
  | nil => rfl
  | cons call calls ih =>
    obtain ⟨start, stop⟩ := call
    unfold ChainWithin ChainFits
    cases h : w.slice start stop with
    | error err =>
      have hfits := fits_of_error h
      simp only [hfits, true_and]
      exact ih hw
    | ok v =>
      constructor
      · intro hchain
        obtain ⟨hin, hrest⟩ := hchain
        have hfits := fits_of_within h hin
        exact ⟨hfits, (ih (within_of_fits hw h hfits).2).mp hrest⟩
      · intro hchain
        obtain ⟨hfits, hrest⟩ := hchain
        obtain ⟨hin, hv⟩ := within_of_fits hw h hfits
        exact ⟨hin, (ih hv).mpr hrest⟩

theorem Window.Within.trans {u v w : Window} (huv : u.Within v) (hvw : v.Within w) :
    u.Within w :=
  ⟨fun i hi => hvw.1 i (huv.1 i hi), fun i hi => hvw.1 i (huv.2 i hi)⟩

theorem Window.chain_within {w : Window} {calls : List (ℤ × Option ℤ)}
    (h : w.ChainWithin calls) : ∀ v ∈ w.chain calls, v.Within w := by
  induction calls generalizing w with
  | nil => simp [chain]
  | cons call calls ih =>
    obtain ⟨start, stop⟩ := call
    unfold ChainWithin at h
    unfold chain
    cases hs : w.slice start stop with
    | error err =>
      rw [hs] at h
      exact ih h
    | ok v =>
      rw [hs] at h
      intro u hu
      rcases List.mem_cons.mp hu with rfl | hu
      · exact h.1
      · exact (ih h.2 u hu).trans h.1

/-- A chain of slices stays inside exactly when no call of it reaches before its window. -/
theorem Buffer.slice_chain_iff (b : Buffer) (calls : List (ℤ × Option ℤ)) :
    (b.ChainWithin calls ↔ b.ChainFits calls) ∧
      (b.ChainFits calls → ∀ v ∈ b.chain calls, v.Within b.toWindow) := by
  have hiff := Window.chainWithin_iff (Or.inl b.inside) calls
  exact ⟨hiff, fun h => Window.chain_within (hiff.mpr h)⟩

/-- `slice(-5, 3)` of the bytes 8 to 17 of the pool starts at byte 3. -/
theorem Buffer.slice_before : ∃ b : Buffer, ¬ b.ChainWithin [(-5, some 3)] := by
  refine ⟨⟨⟨8192, 8, 10⟩, by decide, by decide, by decide, by decide⟩, ?_⟩
  intro h
  have hin : Window.Within ⟨8192, 3, 8⟩ ⟨8192, 8, 10⟩ := h.1
  obtain ⟨hlo, -⟩ := hin.1 3 (by constructor <;> decide)
  exact absurd hlo (by decide)

end NodeJS
