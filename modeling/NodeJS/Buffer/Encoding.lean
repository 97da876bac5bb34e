import NodeJS.Buffer.Base64
import NodeJS.Lib.Fit

/-! The encodings `Buffer` accepts, the byte lengths it predicts for them, and its writers.
Every encoding but base64 works code unit by code unit. -/
namespace NodeJS

inductive Encoding
  | utf8
  | ascii
  | binary
  | base64
  | ucs2
  deriving DecidableEq, Repr

/-- The name a caller gives for an encoding. `'utf8'`, `'utf-8'` and `'UTF8'` select the same
encoding but are different strings; the code only ever compares names for equality. -/
structure EncName where
  encoding : Encoding
  spelling : ℕ
  deriving DecidableEq, Repr

/-- The encoding argument of a call; `none` stands for `undefined`. -/
abbrev EncArg := Option EncName

/-- `String(encoding || 'utf8')` -/
def EncArg.encoding (e : EncArg) : Encoding := (e.map EncName.encoding).getD .utf8

def encName (e : Encoding) : EncName := ⟨e, 0⟩

def unitBytes : Encoding → UInt16 → Bytes
  | .utf8, c => utf8Unit c
  | .ascii, c => [asciiByte c]
  | .binary, c => [lowByte c]
  | .ucs2, c => [lowByte c, highByte c]
  | .base64, _ => []

def encode : Encoding → JSString → Bytes
  | .base64, s => Base64.decode (asciiValue s)
  | e, s => s.flatMap (unitBytes e)

/-- Data as a caller passes it to a `write` method. -/
inductive Chunk
  | str (s : JSString)
  | buffer (b : Bytes)
  deriving DecidableEq

def Chunk.length : Chunk → ℕ
  | .str s => s.length
  | .buffer b => b.length

/-- The bytes a chunk stands for; a Buffer has no use for an encoding. -/
def Chunk.encode (e : Encoding) : Chunk → Bytes
  | .str s => NodeJS.encode e s
  | .buffer b => b

/-- `Buffer.byteLength`. A size that wrapped around is returned as `-1`. -/
def byteLength : Encoding → JSString → ℤ
  | .utf8, s => (s.flatMap utf8Unit).length
  | .base64, s =>
    let size := Base64.base64DecodedSize (s.flatMap utf8Unit)
    if size.wrapped then -1 else size.val
  | .ucs2, s => s.length * 2
  | _, s => s.length

/-! ### Reading UTF-8 -/

def kBadChar : ℕ := 0xFFFD

/-- `Utf8::CalculateValue` for a character that starts with `first`, which is not ASCII: its
value and the bytes it takes. -/
def calculateValue (first : ℕ) (rest : List ℕ) : ℕ × ℕ :=
  let bad := (kBadChar, 1)
  match rest with
  | [] => bad
  | b :: rest =>
    let second := b ^^^ 0x80
    if second &&& 0xC0 ≠ 0 then bad else
    if first < 0xE0 then
      let codePoint := ((first <<< 6) ||| second) &&& 0x7FF
      if first < 0xC0 ∨ codePoint ≤ 0x7F then bad else (codePoint, 2)
    else
    match rest with
    | [] => bad
    | b :: rest =>
      let third := b ^^^ 0x80
      if third &&& 0xC0 ≠ 0 then bad else
      if first < 0xF0 then
        let codePoint := ((((first <<< 6) ||| second) <<< 6) ||| third) &&& 0xFFFF
        if codePoint ≤ 0x7FF then bad else (codePoint, 3)
      else
      match rest with
      | [] => bad
      | b :: _ =>
        let fourth := b ^^^ 0x80
        if fourth &&& 0xC0 ≠ 0 then bad else
        let codePoint := ((((((first <<< 6) ||| second) <<< 6) ||| third) <<< 6) ||| fourth) &&&
          0x1FFFFF
        if first ≥ 0xF8 ∨ codePoint ≤ 0xFFFF then bad else (codePoint, 4)

/-- The characters of a byte string; those beyond the first plane are replaced. -/
def utf8Chars : ℕ → List ℕ → JSString
  | 0, _ => []
  | _ + 1, [] => []
  | fuel + 1, first :: rest =>
    let (value, count) := if first ≤ 0x7F then (first, 1) else calculateValue first rest
    let value := if value > 0xFFFF then kBadChar else value
    value.toUInt16 :: utf8Chars fuel ((first :: rest).drop count)

/-- `buffer.toString()` -/
def utf8Slice (b : Bytes) : JSString := utf8Chars b.length (b.map UInt8.toNat)

/-- `Encode`: binary unit by unit, every other encoding through `String::New(char*)`. -/
def encodeString (bytes : Bytes) : Encoding → JSString
  | .binary => bytes.map UInt8.toUInt16
  | _ => utf8Slice bytes

/-! ### The writers -/

/-- Outcome of a writer: the bytes it put into the buffer, terminators of the engine
included, the count it returned and `_charsWritten`. -/
structure Written where
  stored : Bytes
  written : ℕ
  charsWritten : ℕ

/-- `String::WriteUtf8`: whole characters, and a NUL if there is room after the last one. -/
def writeUtf8 (s : JSString) (capacity : ℕ) : Bytes × ℕ :=
  let nchars := Lib.fit utf8Unit capacity s
  let bytes := (s.take nchars).flatMap utf8Unit
  if nchars = s.length ∧ bytes.length < capacity then (bytes ++ [0], nchars) else (bytes, nchars)

def utf8Write (s : JSString) (maxLength : ℕ) : Written :=
  if s.length = 0 then ⟨[], 0, 0⟩ else
  let (p, charWritten) := writeUtf8 s maxLength
  let written := p.length
  let written :=
    if written > 0 ∧ p[written - 1]? = some 0 ∧ charWritten = s.length then
      if s.getLast? ≠ some 0 ∨ written > (s.flatMap utf8Unit).length then written - 1 else written
    else written
  ⟨p, written, charWritten⟩

/-- `Ucs2Write`; `String::Write` closes with a NUL character if there is room for one. -/
def ucs2Write (s : JSString) (maxLength : ℕ) : Written :=
  let maxLength := maxLength / 2
  let written := min s.length maxLength
  let p := (s.take written).flatMap (unitBytes .ucs2)
  ⟨if written < maxLength then p ++ [0, 0] else p, written * 2, written⟩

/-- `AsciiWrite` leaves `WriteAscii` no room for a NUL behind the text. -/
def asciiWrite (s : JSString) (maxLength : ℕ) : Written :=
  let maxLength := min s.length maxLength
  ⟨(s.take maxLength).map asciiByte, maxLength, maxLength⟩

def binaryWrite (s : JSString) (maxLength : ℕ) : Written :=
  let maxLength := min s.length maxLength
  ⟨(s.take maxLength).map lowByte, maxLength, maxLength⟩

/-- `Buffer.prototype.write` at an offset inside a buffer that owns its memory. -/
def bufferWrite (length : ℕ) (string : JSString) (offset : ℕ) (encoding : Encoding) :
    Except Base64.WriteError Written :=
  let maxLength := length - offset
  match encoding with
  | .utf8 => .ok (utf8Write string maxLength)
  | .ascii => .ok (asciiWrite string maxLength)
  | .binary => .ok (binaryWrite string maxLength)
  | .ucs2 => .ok (ucs2Write string maxLength)
  | .base64 =>
    (Base64.base64Write length string offset).map fun p => ⟨p, p.length, string.length⟩

/-! ### Every encoding but base64 is a code of the units -/

theorem encode_eq_flatMap {e : Encoding} (h : e ≠ .base64) (s : JSString) :
    encode e s = s.flatMap (unitBytes e) := by
  cases e <;> first | rfl | exact absurd rfl h

theorem encode_append {e : Encoding} (h : e ≠ .base64) (s t : JSString) :
    encode e (s ++ t) = encode e s ++ encode e t := by
  simp only [encode_eq_flatMap h, List.flatMap_append]

@[simp] theorem encode_nil (e : Encoding) : encode e [] = [] := by
  cases e <;> rfl

theorem length_utf8Unit (c : UInt16) :
    (utf8Unit c).length = if c ≤ 0x7f then 1 else if c ≤ 0x7ff then 2 else 3 := by
  unfold utf8Unit
  dsimp only
  split_ifs <;> rfl

theorem length_unitBytes_le (e : Encoding) (c : UInt16) : (unitBytes e c).length ≤ 3 := by
  cases e with
  | utf8 =>
    rw [unitBytes, length_utf8Unit]
    split_ifs <;> decide
  | _ => simp [unitBytes]

theorem unitBytes_length_pos {e : Encoding} (h : e ≠ .base64) (c : UInt16) :
    0 < (unitBytes e c).length := by
  cases e with
  | utf8 =>
    rw [unitBytes, length_utf8Unit]
    split_ifs <;> decide
  | base64 => exact absurd rfl h
  | _ => simp [unitBytes]

theorem encode_ne_nil {e : Encoding} (h : e ≠ .base64) {s : JSString} (hs : s ≠ []) :
    encode e s ≠ [] := by
  cases s with
  | nil => exact absurd rfl hs
  | cons c s =>
    have hc := unitBytes_length_pos h c
    rw [encode_eq_flatMap h, List.flatMap_cons]
    intro he
    rw [(List.append_eq_nil_iff.mp he).1] at hc
    simp at hc

theorem byteLength_eq {e : Encoding} (h : e ≠ .base64) (s : JSString) :
    byteLength e s = (encode e s).length := by
  cases e with
  | base64 => exact absurd rfl h
  | _ => simp [byteLength, encode, unitBytes, List.length_flatMap]

/-! ### ASCII text -/

/-- The encodings that store a character of the ASCII range as its code. -/
def Encoding.keepsAscii : Encoding → Bool
  | .utf8 => true
  | .ascii => true
  | .binary => true
  | .base64 => false
  | .ucs2 => false

theorem Encoding.keepsAscii_ne_base64 (e : Encoding) (h : e.keepsAscii = true) : e ≠ .base64 := by
  rintro rfl
  cases h

/-- An ASCII text as the codes of its characters. -/
def ascii (t : JSString) : Bytes := t.map lowByte

/-- Whether an encoding stores an ASCII text as the codes of its characters. `String::WriteAscii`
puts a blank in the place of a NUL. -/
def Keeps : Encoding → JSString → Prop
  | .utf8, _ => True
  | .binary, _ => True
  | .ascii, t => 0 ∉ t
  | .ucs2, _ => False
  | .base64, _ => False

instance : ∀ (e : Encoding) (t : JSString), Decidable (Keeps e t)
  | .utf8, _ => inferInstanceAs (Decidable True)
  | .binary, _ => inferInstanceAs (Decidable True)
  | .ascii, t => inferInstanceAs (Decidable (0 ∉ t))
  | .ucs2, _ => inferInstanceAs (Decidable False)
  | .base64, _ => inferInstanceAs (Decidable False)

theorem Keeps.congr {e : Encoding} {t u : JSString} (h : 0 ∈ t ↔ 0 ∈ u) :
    Keeps e t ↔ Keeps e u := by
  cases e with
  | ascii => exact not_congr h
  | _ => exact Iff.rfl

theorem Keeps.keepsAscii {e : Encoding} {t : JSString} (h : Keeps e t) : e.keepsAscii = true := by
  cases e with
  | ucs2 => exact h.elim
  | base64 => exact h.elim
  | _ => rfl

@[simp] theorem ascii_nil : ascii [] = [] := rfl

@[simp] theorem ascii_append (t u : JSString) : ascii (t ++ u) = ascii t ++ ascii u :=
  List.map_append

@[simp] theorem length_ascii (t : JSString) : (ascii t).length = t.length := List.length_map _

theorem encode_utf8_ascii {t : JSString} (ht : ∀ c ∈ t, c < 0x80) : encode .utf8 t = ascii t := by
  show t.flatMap utf8Unit = t.map lowByte
  rw [List.map_eq_flatMap]
  exact List.flatMap_congr fun c hc => utf8Unit_ascii (ht c hc)

theorem asciiByte_eq_iff {c : UInt16} (hc : c < 0x80) : asciiByte c = lowByte c ↔ c ≠ 0 := by
  constructor
  · intro h hzero
    rw [hzero] at h
    revert h
    decide
  · intro hne
    exact asciiByte_text ⟨UInt16.pos_iff_ne_zero.mpr hne, hc⟩

theorem asciiValue_eq_iff {t : JSString} (ht : ∀ c ∈ t, c < 0x80) :
    t.map asciiByte = ascii t ↔ 0 ∉ t := by
  unfold ascii
  rw [List.map_inj_left]
  constructor
  · intro h hzero
    exact (asciiByte_eq_iff (ht 0 hzero)).mp (h 0 hzero) rfl
  · intro h c hc
    rw [asciiByte_eq_iff (ht c hc)]
    rintro rfl
    exact h hc

theorem encode_eq_ascii_iff {e : Encoding} (he : e.keepsAscii = true) {t : JSString}
    (ht : ∀ c ∈ t, c < 0x80) : encode e t = ascii t ↔ Keeps e t := by
  cases e with
  | utf8 => exact iff_of_true (encode_utf8_ascii ht) trivial
  | ascii =>
    rw [show encode .ascii t = t.map asciiByte from List.map_eq_flatMap.symm]
    exact asciiValue_eq_iff ht
  | binary => exact iff_of_true List.map_eq_flatMap.symm trivial
  | base64 => cases he
  | ucs2 => cases he

theorem length_encode_ascii {e : Encoding} (he : e.keepsAscii = true) {t : JSString}
    (ht : ∀ c ∈ t, c < 0x80) : (encode e t).length = t.length := by
  cases e with
  | utf8 => rw [encode_utf8_ascii ht, length_ascii]
  | base64 => cases he
  | ucs2 => cases he
  | _ => simp [encode, List.length_flatMap, unitBytes]

theorem Keeps.of_text {e : Encoding} (he : e.keepsAscii = true) {t : JSString}
    (ht : ∀ c ∈ t, IsText c) : Keeps e t := by
  cases e with
  | ascii =>
    intro hzero
    exact absurd (ht 0 hzero).1 (by decide)
  | base64 => cases he
  | ucs2 => cases he
  | _ => trivial

theorem encode_text {e : Encoding} (he : e.keepsAscii = true) {t : JSString}
    (ht : ∀ c ∈ t, IsText c) : encode e t = ascii t :=
  (encode_eq_ascii_iff he fun c hc => (ht c hc).2).mpr (Keeps.of_text he ht)

/-! ### What the writers report -/

theorem continuation_ne_zero (x : UInt16) : ((0x80 : UInt16) ||| x).toUInt8 ≠ 0 := by
  intro h
  have hn : ((0x80 : UInt16) ||| x).toNat % 256 = 0 := by
    simpa using congrArg UInt8.toNat h
  have hb : (((0x80 : UInt16) ||| x).toNat % 2 ^ 8).testBit 7 = true := by
    rw [Nat.testBit_mod_two_pow, UInt16.toNat_or, Nat.testBit_or]
    rfl
  rw [show 2 ^ 8 = 256 from rfl, hn] at hb
  simp at hb

theorem eq_zero_of_utf8Unit_getLast {c : UInt16} (h : (utf8Unit c).getLast? = some 0) :
    c = 0 := by
  unfold utf8Unit at h
  dsimp only at h
  split_ifs at h with h₁
  · have hc : c.toNat % 256 = 0 := by
      simpa using congrArg UInt8.toNat (Option.some.inj h)
    rw [UInt16.le_iff_toNat_le] at h₁
    have : c.toNat ≤ 127 := h₁
    exact UInt16.toNat_inj.mp (show c.toNat = 0 by omega)
  · exact absurd (Option.some.inj h) (continuation_ne_zero _)
  · exact absurd (Option.some.inj h) (continuation_ne_zero _)

theorem getLast_of_utf8_getLast {s : JSString} (h : (s.flatMap utf8Unit).getLast? = some 0) :
    s.getLast? = some 0 := by
  rcases List.eq_nil_or_concat' s with rfl | ⟨init, c, rfl⟩
  · simp at h
  · have hne : utf8Unit c ≠ [] := by
      intro he
      have := length_utf8Unit c
      rw [he] at this
      split_ifs at this
    rw [List.flatMap_append, List.flatMap_singleton, List.getLast?_append_of_ne_nil _ hne] at h
    simp [eq_zero_of_utf8Unit_getLast h]

/-- What the caller of a writer may rely on: whole characters of the string were stored, as
many as fit, and both counts are exact. -/
structure Written.Exact (w : Written) (e : Encoding) (s : JSString) (room : ℕ) : Prop where
  charsWritten_eq : w.charsWritten = Lib.fit (unitBytes e) room s
  written_eq : w.written = (encode e (s.take w.charsWritten)).length
  stored_take : w.stored.take w.written = encode e (s.take w.charsWritten)

/-- The NUL of the engine is never counted, and a NUL of the string always is. -/
theorem utf8Write_exact (s : JSString) (room : ℕ) : (utf8Write s room).Exact .utf8 s room := by
  have he : ∀ t : JSString, encode .utf8 t = t.flatMap utf8Unit := fun _ => rfl
  by_cases hs : s.length = 0
  · have : s = [] := List.length_eq_zero_iff.mp hs
    subst this
    exact ⟨rfl, rfl, rfl⟩
  have hn := Lib.fit_le_length utf8Unit room s
  by_cases hall : Lib.fit utf8Unit room s = s.length
  · by_cases hroom : (s.flatMap utf8Unit).length < room
    · have hw : utf8Write s room =
          ⟨s.flatMap utf8Unit ++ [0], (s.flatMap utf8Unit).length, s.length⟩ := by
        simp [utf8Write, writeUtf8, hs, hall, hroom, -List.length_flatMap]
      rw [hw]
      exact ⟨hall.symm, by simp [he], by simp [he, -List.length_flatMap]⟩
    · have hw : utf8Write s room =
          ⟨s.flatMap utf8Unit, (s.flatMap utf8Unit).length, s.length⟩ := by
        simp only [utf8Write, writeUtf8, hs, hall, hroom, List.take_length, and_false, if_false,
          and_true, lt_irrefl, or_false, ← List.getLast?_eq_getElem?, ne_eq]
        split_ifs with h₁ h₂
        · rfl
        · exact absurd (getLast_of_utf8_getLast h₁.2) h₂
        · rfl
      rw [hw]
      exact ⟨hall.symm, by simp [he], by simp [he, -List.length_flatMap]⟩
  · have hw : utf8Write s room = ⟨(s.take (Lib.fit utf8Unit room s)).flatMap utf8Unit,
        ((s.take (Lib.fit utf8Unit room s)).flatMap utf8Unit).length,
        Lib.fit utf8Unit room s⟩ := by
      simp [utf8Write, writeUtf8, hs, hall]
    rw [hw]
    exact ⟨rfl, rfl, List.take_length⟩

theorem ucs2Write_exact (s : JSString) (room : ℕ) : (ucs2Write s room).Exact .ucs2 s room := by
  have hfit : Lib.fit (unitBytes .ucs2) room s = min s.length (room / 2) :=
    Lib.fit_of_length_eq _ two_pos (fun _ => rfl) room s
  have hlen : ∀ t : JSString, (t.flatMap (unitBytes .ucs2)).length = t.length * 2 := by
    intro t
    simp [List.length_flatMap, unitBytes]
  have htake : (s.take (min s.length (room / 2))).length = min s.length (room / 2) := by simp
  refine ⟨hfit.symm, ?_, ?_⟩
  · simp only [ucs2Write, encode, hlen, htake]
  · have hl := hlen (s.take (min s.length (room / 2)))
    rw [htake] at hl
    simp only [ucs2Write, encode, ← hl]
    split_ifs
    · exact List.take_left' rfl
    · exact List.take_length

/-- `AsciiWrite` and `BinaryWrite` store one byte a character. -/
theorem singleByteWrite_exact {e : Encoding} {byte : UInt16 → UInt8} (he : e ≠ .base64)
    (hb : unitBytes e = fun c => [byte c]) (s : JSString) (room : ℕ) :
    Written.Exact ⟨(s.take (min s.length room)).map byte, min s.length room, min s.length room⟩
      e s room := by
  have hfit : Lib.fit (unitBytes e) room s = min s.length (room / 1) :=
    Lib.fit_of_length_eq _ one_pos (fun c => by rw [hb]; rfl) room s
  have henc : ∀ t, encode e t = t.map byte := by
    intro t
    rw [encode_eq_flatMap he, hb, List.map_eq_flatMap]
  rw [Nat.div_one] at hfit
  refine ⟨hfit.symm, ?_, ?_⟩
  · simp [henc]
  · simp only [henc]
    exact List.take_of_length_le (by simp)

theorem bufferWrite_exact {e : Encoding} (he : e ≠ .base64) (length : ℕ) (s : JSString)
    (offset : ℕ) :
    ∃ w, bufferWrite length s offset e = .ok w ∧ w.Exact e s (length - offset) := by
  cases e with
  | utf8 => exact ⟨_, rfl, utf8Write_exact s _⟩
  | ascii => exact ⟨_, rfl, singleByteWrite_exact he rfl s _⟩
  | binary => exact ⟨_, rfl, singleByteWrite_exact he rfl s _⟩
  | ucs2 => exact ⟨_, rfl, ucs2Write_exact s _⟩
  | base64 => exact absurd rfl he

end NodeJS
