import NodeJS.Buffer.Window

/-! The checks of an offset and a length in front of the system calls of the bindings for files and
sockets, and in front of the HTTP parser. -/
namespace NodeJS
open Base64

inductive RangeError
  /-- `Offset is out of bounds` -/
  | offset
  /-- `Length is extends beyond buffer` -/
  | length
  deriving DecidableEq

/-- Sum of two values of type `size_t`. -/
def sizeAdd (a b : ℕ) : ℕ := (a + b) % 2 ^ 64

/-- The offset and the length that the call is given, or the exception. -/
def checkRange (bufferLength : ℕ) (offset length : ℤ) : Except RangeError (ℕ × ℕ) :=
  let off := sizeOfInt (int32Value offset)
  if off ≥ bufferLength then .error .offset
  else
    let len := sizeOfInt (int32Value length)
    if sizeAdd off len > bufferLength then .error .length else .ok (off, len)

/-! ### The copies of the check -/

namespace Binding

/-- `Read` of node_file.cc -/
def fsRead := checkRange

/-- `Write` of node_file.cc, which keeps the length in a `ssize_t` until it is added or passed on. -/
def fsWrite (bufferLength : ℕ) (offset length : ℤ) : Except RangeError (ℕ × ℕ) :=
  let off := sizeOfInt (int32Value offset)
  if off ≥ bufferLength then .error .offset
  else
    let len := int32Value length
    if sizeAdd off (sizeOfInt len) > bufferLength then .error .length
    else .ok (off, sizeOfInt len)

/-- `Read` of node_net.cc -/
def netRead := checkRange

/-- `RecvFrom` of node_net.cc -/
def netRecvFrom := checkRange

/-- `RecvMsg` of node_net.cc -/
def netRecvMsg := checkRange

/-- `Write` of node_net.cc -/
def netWrite := checkRange

/-- `Parser::Execute` of node_http_parser.cc -/
def parserExecute := checkRange

end Binding

def bindings : List (ℕ → ℤ → ℤ → Except RangeError (ℕ × ℕ)) :=
  [Binding.fsRead, Binding.fsWrite, Binding.netRead, Binding.netRecvFrom, Binding.netRecvMsg,
    Binding.netWrite, Binding.parserExecute]

theorem eq_checkRange : ∀ check ∈ bindings, check = checkRange := by
  simp only [bindings, List.forall_mem_cons]
  exact ⟨rfl, rfl, rfl, rfl, rfl, rfl, rfl, by simp⟩

/-! ### What the checks let pass -/

theorem sizeOfInt_of_nonneg {x : ℤ} (hx : IsInt32 x) (h : 0 ≤ x) :
    sizeOfInt (int32Value x) = x.toNat := by
  obtain ⟨-, hlt⟩ := hx
  unfold sizeOfInt int32Value
  omega

/-- A value below 0 becomes a large one, and the sum with it wraps around. -/
theorem sizeOfInt_of_neg {x : ℤ} (hx : IsInt32 x) (h : x < 0) :
    (sizeOfInt (int32Value x) : ℤ) = 2 ^ 64 + x := by
  obtain ⟨hge, -⟩ := hx
  unfold sizeOfInt int32Value
  omega

theorem checkRange_ok_iff {n : ℕ} (hn : n < 2 ^ 63) {offset length : ℤ} (ho : IsInt32 offset)
    (hl : IsInt32 length) (off len : ℕ) :
    checkRange n offset length = .ok (off, len) ↔
      off = offset ∧ off < n ∧ 0 ≤ offset + length ∧ offset + length ≤ n ∧
        (len : ℤ) = length % 2 ^ 64 := by
  have hlength : (sizeOfInt (int32Value length) : ℤ) = length % 2 ^ 64 := by
    obtain ⟨hge, hlt⟩ := hl
    unfold sizeOfInt int32Value
    omega
  unfold checkRange sizeAdd
  dsimp only
  by_cases h : 0 ≤ offset
  · rw [sizeOfInt_of_nonneg ho h]
    obtain ⟨hge, hlt⟩ := hl
    split_ifs with hbehind hbeyond
    · refine iff_of_false (by simp) ?_
      rintro ⟨hoff, hlt, -⟩
      omega
    · refine iff_of_false (by simp) ?_
      rintro ⟨hoff, hlt, hsum, hle, hlen⟩
      omega
    · rw [Except.ok.injEq, Prod.mk.injEq]
      constructor
      · rintro ⟨rfl, rfl⟩
        exact ⟨by omega, by omega, by omega, by omega, hlength⟩
      · rintro ⟨hoff, -, -, -, hlen⟩
        exact ⟨by omega, by omega⟩
  · have hneg := sizeOfInt_of_neg ho (by omega)
    have hge := ho.1
    rw [if_pos (by omega)]
    refine iff_of_false (by simp) ?_
    rintro ⟨hoff, -⟩
    omega

/-- What is passed on lies inside the buffer, unless the length is less than 0 and not by more than
the offset. -/
theorem range_inside_iff {check : ℕ → ℤ → ℤ → Except RangeError (ℕ × ℕ)} (hcheck : check ∈ bindings)
    {n : ℕ} (hn : n < 2 ^ 63) {offset length : ℤ} (ho : IsInt32 offset) (hl : IsInt32 length) :
    (∀ off len, check n offset length = .ok (off, len) → off + len ≤ n) ↔
      ¬ (0 ≤ offset ∧ offset < n ∧ length < 0 ∧ 0 ≤ offset + length) := by
  rw [eq_checkRange check hcheck]
  simp only [checkRange_ok_iff hn ho hl]
  have hge := hl.1
  have hlt := hl.2
  constructor
  · rintro hall ⟨h, hlt, hneg, hsum⟩
    have hinside := hall offset.toNat (length % 2 ^ 64).toNat
      ⟨by omega, by omega, hsum, by omega, by omega⟩
    omega
  · rintro hnot off len ⟨hoff, hlt, hsum, hle, hlen⟩
    omega

theorem range_inside_iff_read :
    (∀ off len, Binding.fsRead 10 5 5 = .ok (off, len) → off + len ≤ 10) ↔
      ¬ ((0 : ℤ) ≤ 5 ∧ (5 : ℤ) < (10 : ℕ) ∧ (5 : ℤ) < 0 ∧ (0 : ℤ) ≤ 5 + 5) :=
  range_inside_iff List.mem_cons_self (by decide) (by decide) (by decide)

/-- Five bytes into a buffer of ten, a length of -3 is taken for one of nearly 2^64. -/
theorem range_outside : ¬ ∀ check ∈ bindings, ∀ (n : ℕ) (offset length : ℤ), n < 2 ^ 63 →
    IsInt32 offset → IsInt32 length →
      ∀ off len, check n offset length = .ok (off, len) → off + len ≤ n := by
  intro h
  have hread : Binding.fsRead 10 5 (-3) = .ok (5, 2 ^ 64 - 3) := rfl
  have hinside := h Binding.fsRead List.mem_cons_self 10 5 (-3) (by decide) (by decide) (by decide)
    _ _ hread
  omega

end NodeJS
