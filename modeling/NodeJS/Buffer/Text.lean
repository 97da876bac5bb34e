import Mathlib.Data.List.Basic
import Mathlib.Data.Nat.Digits.Defs

/-! Strings as the engine stores them, and the bytes it makes of a single code unit.
A string is its sequence of UTF-16 code units; V8 transcodes unit by unit, surrogates
included, so every routine below is a map over units. -/
namespace NodeJS

abbrev JSString := List UInt16

abbrev Bytes := List UInt8

/-- A string literal of the source. -/
def js (s : String) : JSString := s.toList.map fun c => c.toNat.toUInt16

def CRLF : JSString := js "\r\n"

/-- `static_cast<char>` of a code unit. -/
def lowByte (c : UInt16) : UInt8 := c.toUInt8

def highByte (c : UInt16) : UInt8 := (c >>> 8).toUInt8

/-- One character of `String::WriteAscii`, which stores a blank for a NUL. -/
def asciiByte (c : UInt16) : UInt8 := if lowByte c = 0 then 0x20 else lowByte c

/-- `unibrow::Utf8::Encode` on a code unit. -/
def utf8Unit (c : UInt16) : Bytes :=
  let kMask : UInt16 := ~~~((1 : UInt16) <<< 6)
  if c ≤ 0x7f then [c.toUInt8]
  else if c ≤ 0x7ff then
    [((0xC0 : UInt16) ||| c >>> 6).toUInt8, ((0x80 : UInt16) ||| c &&& kMask).toUInt8]
  else
    [((0xE0 : UInt16) ||| c >>> 12).toUInt8, ((0x80 : UInt16) ||| (c >>> 6) &&& kMask).toUInt8,
      ((0x80 : UInt16) ||| c &&& kMask).toUInt8]

/-- `String::AsciiValue`: the characters, without the closing NUL. -/
def asciiValue (s : JSString) : Bytes := s.map asciiByte

/-- A character of the ASCII range other than NUL, which `asciiByte` does not keep. -/
def IsText (c : UInt16) : Prop := 0 < c ∧ c < 0x80

instance (c : UInt16) : Decidable (IsText c) := inferInstanceAs (Decidable (_ ∧ _))

/-- What is said of every unit of a string is decided unit by unit of the string. -/
instance (priority := high) decidableForallUnit (p : UInt16 → Prop) [DecidablePred p]
    (s : JSString) : Decidable (∀ c ∈ s, p c) := List.decidableBAll p s

/-- The characters of a text that is given, looked at one by one. -/
theorem isText_of_all {t : JSString} (h : t.all (fun c => decide (IsText c)) = true) :
    ∀ c ∈ t, IsText c := by
  intro c hc
  exact of_decide_eq_true (List.all_eq_true.mp h c hc)

/-- All bytes, looked at one by one. -/
theorem forall_byte {P : UInt8 → Prop} (h : ∀ n < 256, P (UInt8.ofNat n)) (b : UInt8) : P b := by
  have hb := h b.toNat (UInt8.toNat_lt b)
  rwa [UInt8.ofNat_toNat] at hb

theorem utf8Unit_ascii {c : UInt16} (h : c < 0x80) : utf8Unit c = [lowByte c] := by
  have hc : c ≤ 0x7f := by
    simp only [UInt16.le_iff_toNat_le, UInt16.lt_iff_toNat_lt, UInt16.reduceToNat] at h ⊢
    omega
  simp [utf8Unit, hc, lowByte]

theorem lowByte_ne_zero {c : UInt16} (h : IsText c) : lowByte c ≠ 0 := by
  obtain ⟨hpos, hlt⟩ := h
  simp only [UInt16.lt_iff_toNat_lt, UInt16.reduceToNat] at hpos hlt
  intro he
  have hn : (lowByte c).toNat = c.toNat % 256 := by simp [lowByte]
  rw [he, UInt8.toNat_zero] at hn
  omega

theorem asciiByte_text {c : UInt16} (h : IsText c) : asciiByte c = lowByte c := by
  simp [asciiByte, lowByte_ne_zero h]

/-! ### Methods of strings -/

/-- What `.` does not match. -/
def isLineTerminator (c : UInt16) : Bool := c = 0x0A ∨ c = 0x0D ∨ c = 0x2028 ∨ c = 0x2029

def lowerUnit (c : UInt16) : UInt16 := if 0x41 ≤ c ∧ c ≤ 0x5a then c + 0x20 else c

/-- `toLowerCase` of the ASCII range. Other letters that have a case are taken to have none. -/
def toLowerCase (s : JSString) : JSString := s.map lowerUnit

/-- Digits of a number in a base up to 16, as `toString(base)` writes them. -/
def numeral (base n : ℕ) : JSString :=
  if n = 0 then js "0"
  else (Nat.digits base n).reverse.map fun d =>
    (if d < 10 then d + 0x30 else d - 10 + 0x61).toUInt16

namespace JSString

/-- An index of `slice`: a negative one counts from the end. -/
def sliceIndex (length : ℕ) (i : ℤ) : ℕ :=
  if i < 0 then (length + i).toNat else min i.toNat length

def slice (s : JSString) (start stop : ℤ) : JSString :=
  (s.take (sliceIndex s.length stop)).drop (sliceIndex s.length start)

theorem slice_nat (s : JSString) (a b : ℕ) : slice s a b = (s.take b).drop a := by
  have hindex : ∀ i : ℕ, sliceIndex s.length i = min i s.length := by
    intro i
    unfold sliceIndex
    rw [if_neg (by omega), Int.toNat_natCast]
  unfold slice
  rw [hindex, hindex, List.take_eq_take_min (i := b)]
  rcases Nat.le_total a s.length with h | h
  · rw [Nat.min_eq_left h]
  · rw [Nat.min_eq_right h, List.drop_of_length_le (by simp),
      List.drop_of_length_le (by simp; omega)]

end JSString

end NodeJS
