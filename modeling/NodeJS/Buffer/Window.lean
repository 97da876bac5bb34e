import NodeJS.Buffer.Encoding

/-! A `Buffer` is a window of the memory of a `SlowBuffer`. Here is where in that memory
`Buffer.prototype.write` stores. Arguments are integers; sums of them are exact, as they are in
JavaScript up to 2^53. -/
namespace NodeJS

open Base64

/-- `ExternalArray::kMaxLength`, the most bytes a `SlowBuffer` can have. -/
def kMaxLength : ℕ := 0x3fffffff

/-- `IsInt32` of an integral number. -/
def IsInt32 (x : ℤ) : Prop := -2 ^ 31 ≤ x ∧ x < 2 ^ 31

instance (x : ℤ) : Decidable (IsInt32 x) := inferInstanceAs (Decidable (_ ∧ _))

/-- `Value::Uint32Value` of an integral number. -/
def uint32Value (x : ℤ) : ℕ := (x % 2 ^ 32).toNat

/-- Difference of two values of type `size_t`. -/
def sizeSub (a b : ℕ) : ℕ := ((a - b : ℤ) % 2 ^ 64).toNat

/-- The fields of a `Buffer` object, and the length of its parent. -/
structure Window where
  parentLength : ℕ
  offset : ℤ
  length : ℤ
  deriving DecidableEq

structure Window.Inside (w : Window) : Prop where
  offset_nonneg : 0 ≤ w.offset
  length_nonneg : 0 ≤ w.length
  le_parent : w.offset + w.length ≤ w.parentLength
  parent_le : w.parentLength ≤ kMaxLength

/-- A `Buffer` in order. -/
structure Buffer extends Window where
  inside : toWindow.Inside

/-- The bytes of the parent that belong to a window. -/
def Window.Has (w : Window) (i : ℤ) : Prop := w.offset ≤ i ∧ i < w.offset + w.length

def Window.bytes (w : Window) (parent : Bytes) : Bytes :=
  (parent.drop w.offset.toNat).take w.length.toNat

theorem Window.Inside.length_bytes {w : Window} (h : w.Inside) {parent : Bytes}
    (hparent : parent.length = w.parentLength) : ((w.bytes parent).length : ℤ) = w.length := by
  have hoff := h.offset_nonneg
  have hlen := h.length_nonneg
  have hend := h.le_parent
  unfold Window.bytes
  rw [List.length_take, List.length_drop]
  omega

/-! ### The writers of `SlowBuffer` -/

/-- Outcome of a writer and the place in the parent it began to store at. -/
structure Placed extends Written where
  position : ℕ

def slowUtf8Write (length : ℕ) (s : JSString) (offset maxLength : ℤ) :
    Except WriteError Placed :=
  let offset := uint32Value offset
  if s.length = 0 then .ok ⟨⟨[], 0, 0⟩, offset⟩
  else if s.length > 0 ∧ offset ≥ length then .error .offsetOutOfBounds
  else .ok ⟨utf8Write s (min (sizeSub length offset) (uint32Value maxLength)), offset⟩

def slowUcs2Write (length : ℕ) (s : JSString) (offset maxLength : ℤ) :
    Except WriteError Placed :=
  let offset := uint32Value offset
  if s.length > 0 ∧ offset ≥ length then .error .offsetOutOfBounds
  else .ok ⟨ucs2Write s (min (sizeSub length offset) (uint32Value maxLength)), offset⟩

def slowAsciiWrite (length : ℕ) (s : JSString) (offset maxLength : ℤ) :
    Except WriteError Placed :=
  let offset := sizeOfInt (int32Value offset)
  if s.length > 0 ∧ offset ≥ length then .error .offsetOutOfBounds
  else .ok ⟨asciiWrite s (min (sizeSub length offset) (uint32Value maxLength)), offset⟩

def slowBinaryWrite (length : ℕ) (s : JSString) (offset maxLength : ℤ) :
    Except WriteError Placed :=
  let offset := sizeOfInt (int32Value offset)
  if s.length > 0 ∧ offset ≥ length then .error .offsetOutOfBounds
  else .ok ⟨binaryWrite s (min (sizeSub length offset) (uint32Value maxLength)), offset⟩

/-- `base64Write` has no use for its third argument. -/
def slowBase64Write (length : ℕ) (s : JSString) (offset _maxLength : ℤ) :
    Except WriteError Placed :=
  (base64Write length s offset).map fun p =>
    ⟨⟨p, p.length, s.length⟩, sizeOfInt (int32Value offset)⟩

def Window.write (w : Window) (s : JSString) (offset : ℤ) (encoding : Encoding) :
    Except WriteError Placed :=
  let maxLength := w.length - offset
  match encoding with
  | .utf8 => slowUtf8Write w.parentLength s (w.offset + offset) maxLength
  | .ascii => slowAsciiWrite w.parentLength s (w.offset + offset) maxLength
  | .binary => slowBinaryWrite w.parentLength s (w.offset + offset) maxLength
  | .base64 => slowBase64Write w.parentLength s (w.offset + offset) maxLength
  | .ucs2 => slowUcs2Write w.parentLength s (w.offset + offset) maxLength

/-! ### What a writer stores -/

def unitWrite : Encoding → JSString → ℕ → Written
  | .utf8, s, room => utf8Write s room
  | .ascii, s, room => asciiWrite s room
  | .binary, s, room => binaryWrite s room
  | .ucs2, s, room => ucs2Write s room
  | .base64, _, _ => ⟨[], 0, 0⟩

/-- Bytes of the first thing a writer stores, which for ucs2 may be the terminating NUL. -/
def firstStored (e : Encoding) (s : JSString) : Option ℕ :=
  if e = .ucs2 then some 2 else s.head?.map fun c => (unitBytes e c).length

theorem length_utf8Write_stored (s : JSString) (room : ℕ) :
    (utf8Write s room).stored.length ≤ room := by
  have hfit := Lib.length_flatMap_take_fit_le utf8Unit room s
  unfold utf8Write writeUtf8
  dsimp only
  split_ifs with h0 h1
  all_goals try exact Nat.zero_le _
  all_goals dsimp only at *
  all_goals try rw [List.length_append, List.length_singleton]
  all_goals omega

theorem length_ucs2Write_stored (s : JSString) (room : ℕ) :
    (unitWrite .ucs2 s room).stored.length =
      if s.length < room / 2 then s.length * 2 + 2 else room / 2 * 2 := by
  have hlen : ∀ t : JSString, (t.flatMap (unitBytes .ucs2)).length = t.length * 2 := by
    intro t
    simp [List.length_flatMap, unitBytes]
  unfold unitWrite ucs2Write
  dsimp only
  split_ifs
  all_goals simp only [List.length_append, hlen, List.length_take, List.length_cons, List.length_nil]
  all_goals omega

theorem length_unitWrite_stored (e : Encoding) (s : JSString) (room : ℕ) :
    (unitWrite e s room).stored.length ≤ room := by
  cases e with
  | utf8 => exact length_utf8Write_stored s room
  | ascii => simp [unitWrite, asciiWrite]
  | binary => simp [unitWrite, binaryWrite]
  | ucs2 =>
    rw [length_ucs2Write_stored]
    split_ifs <;> omega
  | base64 => exact Nat.zero_le _

theorem flatMap_take_fit_eq_nil_iff (s : JSString) (room : ℕ) :
    (s.take (Lib.fit utf8Unit room s)).flatMap utf8Unit = [] ↔
      ∀ b, s.head?.map (fun c => (utf8Unit c).length) = some b → room < b := by
  cases s with
  | nil => simp
  | cons c s =>
    have hpos := unitBytes_length_pos (e := .utf8) (by decide) c
    simp only [List.head?_cons, Option.map_some, Option.some.injEq, forall_eq', Lib.fit]
    split_ifs with h
    · simp only [List.take_succ_cons, List.flatMap_cons, List.append_eq_nil_iff]
      constructor
      · intro hnil
        rw [unitBytes, hnil.1] at hpos
        exact absurd hpos (by simp)
      · intro hlt
        omega
    · simp only [List.take_zero, List.flatMap_nil, true_iff]
      omega

/-- Nothing is stored exactly when the first thing to store does not fit. -/
theorem unitWrite_stored_eq_nil_iff {e : Encoding} (he : e ≠ .base64) (s : JSString) (room : ℕ) :
    (unitWrite e s room).stored = [] ↔ ∀ b, firstStored e s = some b → room < b := by
  have hsingle : ∀ byte : UInt16 → UInt8, (s.take (min s.length room)).map byte = [] ↔
      ∀ b, s.head?.map (fun _ => 1) = some b → room < b := by
    intro byte
    cases s with
    | nil => simp
    | cons c s =>
      simp only [List.map_eq_nil_iff, List.take_eq_nil_iff, List.length_cons, reduceCtorEq, or_false,
        List.head?_cons, Option.map_some, Option.some.injEq, forall_eq']
      omega
  cases e with
  | utf8 =>
    by_cases hs : s.length = 0
    · have hnil := List.length_eq_zero_iff.mp hs
      subst hnil
      simp [unitWrite, utf8Write, firstStored]
    · have hstored : (utf8Write s room).stored = (writeUtf8 s room).1 := by
        simp only [utf8Write, hs, if_false]
      simp only [unitWrite, hstored, writeUtf8, firstStored, reduceCtorEq, if_false, unitBytes]
      rw [← flatMap_take_fit_eq_nil_iff]
      split_ifs with hall
      · simp only [List.append_eq_nil_iff, List.cons_ne_nil, and_false, false_iff, hall.1,
          List.take_length]
        exact encode_ne_nil (e := .utf8) (by decide) (fun hnil => hs (by simp [hnil]))
      · rfl
  | ascii => exact hsingle asciiByte
  | binary => exact hsingle lowByte
  | ucs2 =>
    rw [← List.length_eq_zero_iff, length_ucs2Write_stored]
    simp only [firstStored, if_true, Option.some.injEq, forall_eq']
    split_ifs with h
    · simp only [false_iff]
      omega
    · omega
  | base64 => exact absurd rfl he

/-! ### Where it is stored -/

/-- Where the native code takes `offset` to point. -/
def Window.position (w : Window) (offset : ℤ) : ℕ := uint32Value (w.offset + offset)

/-- Room the native code sees from a position on: up to the end of the window or, past it, up
to the end of the parent; past that the difference has wrapped around. -/
def Window.room (w : Window) (p : ℕ) : ℕ :=
  if p ≤ w.offset + w.length then (w.offset + w.length - p).toNat
  else if p ≤ w.parentLength then w.parentLength - p
  else (2 ^ 32 + w.offset + w.length - p).toNat

theorem Buffer.limit_eq (b : Buffer) (offset : ℤ) :
    min (sizeSub b.parentLength (b.position offset)) (uint32Value (b.length - offset)) =
      b.room (b.position offset) := by
  obtain ⟨ho, hn, hle, hmax⟩ := b.inside
  unfold kMaxLength at hmax
  have hp : b.position offset < 2 ^ 32 := by
    unfold Window.position uint32Value
    omega
  have hu : uint32Value (b.length - offset) =
      ((b.offset + b.length - b.position offset) % 2 ^ 32).toNat := by
    unfold Window.position uint32Value
    omega
  rw [hu]
  generalize b.position offset = p at *
  unfold Window.room sizeSub
  split_ifs <;> omega

/-- An `int32_t` that is not negative is read as the `uint32_t` would be; a negative one lands
far behind every buffer, and so does its `uint32_t`. -/
theorem sizeOfInt_int32Value_cases (x : ℤ) :
    sizeOfInt (int32Value x) = uint32Value x ∧ uint32Value x < 2 ^ 31 ∨
      2 ^ 31 ≤ sizeOfInt (int32Value x) ∧ 2 ^ 31 ≤ uint32Value x := by
  unfold sizeOfInt int32Value uint32Value
  omega

/-- Outcome of a write that is given a limit, as a function of where it points: it is refused
behind the parent, and otherwise stores what fits into the room there. -/
def Buffer.Outcome (b : Buffer) (s : JSString) (offset : ℤ) (e : Encoding) : Prop :=
  s ≠ [] ∧ b.parentLength ≤ b.position offset ∧
      b.write s offset e = .error .offsetOutOfBounds ∨
    ¬ (s ≠ [] ∧ b.parentLength ≤ b.position offset) ∧
      ∃ p, b.write s offset e = .ok ⟨unitWrite e s (b.room (b.position offset)), p⟩ ∧
        ((unitWrite e s (b.room (b.position offset))).stored ≠ [] → p = b.position offset)

section
variable (b : Buffer) {e : Encoding} {s : JSString} {offset : ℤ}

theorem Buffer.outcome_of_uint32 (hw : b.write s offset e =
      if s.length > 0 ∧ b.position offset ≥ b.parentLength then .error .offsetOutOfBounds
      else .ok ⟨unitWrite e s (b.room (b.position offset)), b.position offset⟩) :
    b.Outcome s offset e := by
  have hlen : s.length > 0 ↔ s ≠ [] := List.length_pos_iff
  by_cases hp : s ≠ [] ∧ b.parentLength ≤ b.position offset
  · left
    rw [if_pos ⟨hlen.mpr hp.1, hp.2⟩] at hw
    exact ⟨hp.1, hp.2, hw⟩
  · right
    rw [if_neg fun h => hp ⟨hlen.mp h.1, h.2⟩] at hw
    exact ⟨hp, _, hw, fun _ => rfl⟩

theorem Buffer.outcome_of_int32 (hnil : ∀ room, unitWrite e [] room = ⟨[], 0, 0⟩)
    (hw : b.write s offset e =
      let p := sizeOfInt (int32Value (b.offset + offset))
      if s.length > 0 ∧ p ≥ b.parentLength then .error .offsetOutOfBounds
      else .ok ⟨unitWrite e s (min (sizeSub b.parentLength p)
        (uint32Value (b.length - offset))), p⟩) :
    b.Outcome s offset e := by
  dsimp only at hw
  by_cases hs : s = []
  · right
    subst hs
    rw [if_neg (by simp), hnil] at hw
    exact ⟨by simp, _, by rw [hw, hnil], by simp [hnil]⟩
  have hmax := b.inside.parent_le
  have hpos : uint32Value (b.offset + offset) = b.position offset := rfl
  unfold kMaxLength at hmax
  rcases sizeOfInt_int32Value_cases (b.offset + offset) with ⟨heq, -⟩ | ⟨hge, hge'⟩
  · rw [heq, hpos, b.limit_eq] at hw
    exact b.outcome_of_uint32 hw
  · left
    rw [if_pos ⟨List.length_pos_of_ne_nil hs, by omega⟩] at hw
    exact ⟨hs, by omega, hw⟩

end

theorem Buffer.write_outcome (b : Buffer) {e : Encoding} (he : e ≠ .base64) (s : JSString)
    (offset : ℤ) : b.Outcome s offset e := by
  have hpos : uint32Value (b.offset + offset) = b.position offset := rfl
  have hlimit := b.limit_eq offset
  cases e with
  | utf8 =>
    by_cases hs : s = []
    · right
      subst hs
      exact ⟨by simp, b.position offset, rfl, fun _ => rfl⟩
    · apply b.outcome_of_uint32
      have hs0 : ¬ s.length = 0 := by simpa using hs
      simp only [Window.write, slowUtf8Write, hs0, if_false, hpos, hlimit, unitWrite]
  | ucs2 =>
    apply b.outcome_of_uint32
    simp only [Window.write, slowUcs2Write, hpos, hlimit, unitWrite]
  | ascii => exact b.outcome_of_int32 (fun room => by simp [unitWrite, asciiWrite]) rfl
  | binary => exact b.outcome_of_int32 (fun room => by simp [unitWrite, binaryWrite]) rfl
  | base64 => exact absurd rfl he

/-- The write stores nothing outside of the window. -/
def Window.Confined (w : Window) (s : JSString) (offset : ℤ) (e : Encoding) : Prop :=
  ∀ r, w.write s offset e = .ok r →
    ∀ i : ℤ, r.position ≤ i → i < r.position + r.stored.length → w.Has i

/-- The offset points into the window or where the write is refused, or there is nothing to
store there. In base64 the end of what is stored matters too. -/
def Window.WriteFits (w : Window) (s : JSString) (offset : ℤ) (e : Encoding) : Prop :=
  let p := w.position offset
  if e = .base64 then
    let stored := (alphabet (asciiValue s)).length * 3 / 4
    w.parentLength ≤ p ∨ w.parentLength - p < (base64DecodedSize (asciiValue s)).val ∨
      stored = 0 ∨ w.offset ≤ p ∧ p + stored ≤ w.offset + w.length
  else
    s ≠ [] ∧ w.parentLength ≤ p ∨ w.offset ≤ p ∧ p ≤ w.offset + w.length ∨
      ∀ first, firstStored e s = some first → w.room p < first

theorem Buffer.confined_iff (b : Buffer) {e : Encoding} (he : e ≠ .base64) (s : JSString)
    (offset : ℤ) : b.Confined s offset e ↔ b.WriteFits s offset e := by
  unfold Window.WriteFits
  simp only [he, if_false]
  rw [← unitWrite_stored_eq_nil_iff he]
  rcases b.write_outcome he s offset with ⟨hs, hp, hw⟩ | ⟨hno, p, hw, hp⟩
  · constructor
    · intro _
      exact Or.inl ⟨hs, hp⟩
    · intro _ r hr
      rw [hw] at hr
      exact absurd hr (by simp)
  · have hstored := length_unitWrite_stored e s (b.room (b.position offset))
    constructor
    · intro hconf
      by_cases hnil : (unitWrite e s (b.room (b.position offset))).stored = []
      · exact Or.inr (Or.inr hnil)
      · have hpos := List.length_pos_of_ne_nil hnil
        obtain ⟨hlo, hhi⟩ := hconf _ hw p (le_refl _) (by dsimp only; omega)
        rw [hp hnil] at hlo hhi
        exact Or.inr (Or.inl ⟨hlo, hhi.le⟩)
    · intro hfits r hr i hlo hhi
      rw [hw, Except.ok.injEq] at hr
      subst hr
      dsimp only at hlo hhi
      have hnil : (unitWrite e s (b.room (b.position offset))).stored ≠ [] := by
        intro hnil
        rw [hnil, List.length_nil] at hhi
        omega
      rcases hfits with h | ⟨h1, h2⟩ | h
      · exact absurd h hno
      · rw [hp hnil] at hlo hhi
        unfold Window.room at hstored hhi
        rw [if_pos h2] at hstored hhi
        constructor <;> omega
      · exact absurd h hnil

theorem Buffer.confined_base64_iff (b : Buffer) (s : JSString) (offset : ℤ) :
    b.Confined s offset .base64 ↔ b.WriteFits s offset .base64 := by
  have hmax := b.inside.parent_le
  have hpos : uint32Value (b.offset + offset) = b.position offset := rfl
  unfold kMaxLength at hmax
  have hlen := length_decode (asciiValue s)
  have hok : ∀ r : Placed, b.write s offset .base64 = .ok r ↔
      ∃ p, base64Write b.parentLength s (b.offset + offset) = .ok p ∧
        r = ⟨⟨p, p.length, s.length⟩, sizeOfInt (int32Value (b.offset + offset))⟩ := by
    intro r
    simp only [Window.write, slowBase64Write]
    cases base64Write b.parentLength s (b.offset + offset) with
    | error err => simp [Except.map]
    | ok p => simp [Except.map, eq_comm]
  unfold Window.WriteFits
  simp only [if_true]
  rw [← hlen]
  have hp := sizeOfInt_int32Value_cases (b.offset + offset)
  rw [hpos] at hp
  constructor
  · intro hconf
    by_contra hfits
    simp only [not_or, not_le, not_lt] at hfits
    obtain ⟨hlt, hsize, hne, hout⟩ := hfits
    have heq : sizeOfInt (int32Value (b.offset + offset)) = b.position offset := by omega
    have hwrite : base64Write b.parentLength s (b.offset + offset) = .ok (decode (asciiValue s)) := by
      rw [base64Write_ok_iff, heq]
      exact Or.inr ⟨hlt, hsize, rfl⟩
    have hin := hconf _ ((hok _).mpr ⟨_, hwrite, rfl⟩)
    dsimp only at hin
    rw [heq] at hin
    have hfirst := (hin (b.position offset) (le_refl _) (by omega)).1
    have hlast := (hin (b.position offset + (decode (asciiValue s)).length - 1) (by omega)
      (by omega)).2
    exact hout ⟨hfirst, by omega⟩
  · intro hfits r hr i hlo hhi
    obtain ⟨q, hq, rfl⟩ := (hok r).mp hr
    dsimp only at hlo hhi
    rcases (base64Write_ok_iff _ _ _ _).mp hq with ⟨-, -, rfl⟩ | ⟨hlt, hsize, rfl⟩
    · rw [List.length_nil] at hhi
      omega
    · have heq : sizeOfInt (int32Value (b.offset + offset)) = b.position offset := by omega
      rw [heq] at hlo hhi hlt hsize
      rcases hfits with h | h | h | ⟨h1, h2⟩
      · omega
      · omega
      · omega
      · constructor <;> omega

/-- Exactly when `write` leaves the rest of the parent alone. -/
theorem Buffer.write_confined_iff (b : Buffer) (s : JSString) (offset : ℤ) (e : Encoding) :
    b.Confined s offset e ↔ b.WriteFits s offset e := by
  by_cases he : e = .base64
  · rw [he]
    exact b.confined_base64_iff s offset
  · exact b.confined_iff he s offset

/-- A `Buffer` that has bytes 8 and 9 of the pool: text goes before it and base64 behind it. -/
theorem Buffer.write_outside :
    ∃ b : Buffer, ¬ b.Confined (js "x") (-1) .utf8 ∧ ¬ b.Confined (js "AAAA") 0 .base64 := by
  refine ⟨⟨⟨8192, 8, 2⟩, by decide, by decide, by decide, by decide⟩, ?_, ?_⟩
  · intro h
    have hw : Window.write ⟨8192, 8, 2⟩ (js "x") (-1) .utf8 = .ok ⟨⟨[0x78, 0], 1, 1⟩, 7⟩ := by rfl
    obtain ⟨hlo, -⟩ := h _ hw 7 (by decide) (by decide)
    exact absurd hlo (by decide)
  · intro h
    have hw : Window.write ⟨8192, 8, 2⟩ (js "AAAA") 0 .base64 =
        .ok ⟨⟨[0, 0, 0], 3, 4⟩, 8⟩ := by rfl
    obtain ⟨-, hhi⟩ := h _ hw 10 (by decide) (by decide)
    exact absurd hhi (by decide)

end NodeJS
