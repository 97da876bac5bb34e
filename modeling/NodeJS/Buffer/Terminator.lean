import NodeJS.Buffer.Alloc
import NodeJS.Buffer.Copy

/-! The NUL that the engine stores behind a text, which the writers of `Buffer` do not report. -/
namespace NodeJS
open Base64 Lib

/-- What is stored behind the last character, where the room lasts for all of them. -/
def terminator : Encoding → JSString → ℕ → Bytes
  | .utf8, s, room => if s ≠ [] ∧ (encode .utf8 s).length < room then [0] else []
  | .ucs2, s, room => if (encode .ucs2 s).length + 2 ≤ room then [0, 0] else []
  | .ascii, _, _ => []
  | .binary, _, _ => []
  | .base64, _, _ => []

theorem terminator_zero {e : Encoding} {s : JSString} {room : ℕ} :
    ∀ b ∈ terminator e s room, b = 0 := by
  unfold terminator
  cases e with
  | utf8 => dsimp only; split_ifs <;> simp
  | ucs2 => dsimp only; split_ifs <;> simp
  | _ => simp

/-- A writer stores what it reports, and the terminator. -/
theorem unitWrite_stored {e : Encoding} (he : e ≠ .base64) (s : JSString) (room : ℕ) :
    (unitWrite e s room).stored =
      (unitWrite e s room).stored.take (unitWrite e s room).written ++ terminator e s room := by
  have hexact := unitWrite_exact he s room
  rw [hexact.stored_take, hexact.charsWritten_eq]
  cases e with
  | utf8 =>
    by_cases hs : s = []
    · subst hs
      rfl
    have hlength : ¬ s.length = 0 := fun h => hs (List.length_eq_zero_iff.mp h)
    show (utf8Write s room).stored = (s.take (fit utf8Unit room s)).flatMap utf8Unit ++
      if s ≠ [] ∧ (s.flatMap utf8Unit).length < room then [0] else []
    unfold utf8Write writeUtf8
    rw [if_neg hlength]
    dsimp only
    by_cases hall : fit utf8Unit room s = s.length
    · rw [hall, List.take_length]
      split_ifs with h₁ h₂ h₂
      · rfl
      · exact absurd ⟨hs, h₁.2⟩ h₂
      · exact absurd ⟨rfl, h₂.2⟩ h₁
      · exact (List.append_nil _).symm
    · rw [if_neg fun h => hall h.1, if_neg, List.append_nil]
      exact fun h => hall ((fit_eq_length_iff utf8Unit room s).mpr h.2.le)
  | ucs2 =>
    have hfit := fit_of_length_eq (unitBytes .ucs2) two_pos (fun _ => rfl) room s
    have htotal : (encode .ucs2 s).length = s.length * 2 := by
      simp [encode, List.length_flatMap, unitBytes]
    show (ucs2Write s room).stored = _ ++ if (encode .ucs2 s).length + 2 ≤ room then _ else _
    unfold ucs2Write
    rw [hfit, htotal]
    dsimp only [encode]
    split_ifs with h₁ h₂ h₂
    · rfl
    · omega
    · omega
    · exact (List.append_nil _).symm
  | ascii =>
    have hfit := fit_of_length_eq (unitBytes .ascii) one_pos (fun _ => rfl) room s
    rw [Nat.div_one] at hfit
    rw [hfit, terminator, List.append_nil]
    exact List.map_eq_flatMap
  | binary =>
    have hfit := fit_of_length_eq (unitBytes .binary) one_pos (fun _ => rfl) room s
    rw [Nat.div_one] at hfit
    rw [hfit, terminator, List.append_nil]
    exact List.map_eq_flatMap
  | base64 => exact absurd rfl he

/-- Where there is a terminator, all of the text is in front of it. -/
theorem written_of_terminator {e : Encoding} (he : e ≠ .base64) {s : JSString} {room : ℕ}
    (h : terminator e s room ≠ []) :
    (unitWrite e s room).written = (encode e s).length := by
  have hroom : (encode e s).length ≤ room := by
    unfold terminator at h
    cases e with
    | utf8 => dsimp only at h; split_ifs at h with h' <;> [exact h'.2.le; exact absurd rfl h]
    | ucs2 => dsimp only at h; split_ifs at h with h' <;> [omega; exact absurd rfl h]
    | _ => exact absurd rfl h
  have hexact := unitWrite_exact he s room
  rw [encode_eq_flatMap he] at hroom
  rw [hexact.written_eq, hexact.charsWritten_eq, (fit_eq_length_iff _ _ _).mpr hroom,
    List.take_length]

/-! ### What `Utf8Write` counts -/

/-- `Buffer::Utf8Write`, whose third argument may be left out. -/
def nativeUtf8Write (length : ℕ) (s : JSString) (offset : ℤ) (maxLength : Option ℤ) :
    Except WriteError Placed :=
  let offset := uint32Value offset
  if s.length = 0 then .ok ⟨⟨[], 0, 0⟩, offset⟩
  else if s.length > 0 ∧ offset ≥ length then .error .offsetOutOfBounds
  else
    let maxLength := match maxLength with
      | none => sizeSub length offset
      | some maxLength => uint32Value maxLength
    .ok ⟨utf8Write s (min (sizeSub length offset) maxLength), offset⟩

/-- Bytes that a write at an offset inside the buffer may use. -/
def utf8Room (length : ℕ) (offset : ℤ) (maxLength : Option ℤ) : ℕ :=
  match maxLength with
  | none => length - offset.toNat
  | some maxLength => min (length - offset.toNat) (uint32Value maxLength)

/-- The longest beginning of a string that fits is stored, and reported in bytes and characters. -/
structure Written.Longest (w : Written) (s : JSString) (room : ℕ) : Prop where
  charsWritten_le : w.charsWritten ≤ s.length
  written_eq : w.written = (encode .utf8 (s.take w.charsWritten)).length
  written_le : w.written ≤ room
  longest : ∀ k ≤ s.length, (encode .utf8 (s.take k)).length ≤ room → k ≤ w.charsWritten
  stored_take : w.stored.take w.written = encode .utf8 (s.take w.charsWritten)

theorem utf8Write_longest (s : JSString) (room : ℕ) : (utf8Write s room).Longest s room := by
  obtain ⟨hchars, hwritten, hstored⟩ := utf8Write_exact s room
  have hfits := length_flatMap_take_fit_le utf8Unit room s
  refine ⟨?_, hwritten, ?_, fun k hk hroom => ?_, hstored⟩
  · rw [hchars]
    exact fit_le_length _ _ _
  · rw [hwritten, hchars]
    exact hfits
  · rw [hchars]
    exact le_fit utf8Unit hk hroom

/-- A NUL of the engine is not counted and one of the string is, at any offset and capacity. -/
theorem nativeUtf8Write_longest {length : ℕ} (hlength : length ≤ kMaxLength) (s : JSString)
    {offset : ℤ} (h : 0 ≤ offset) (hlt : offset < length) (maxLength : Option ℤ) :
    ∃ r, nativeUtf8Write length s offset maxLength = .ok r ∧
      r.Longest s (utf8Room length offset maxLength) := by
  unfold kMaxLength at hlength
  have hoffset : uint32Value offset = offset.toNat := by
    unfold uint32Value
    omega
  have hrest : sizeSub length offset.toNat = length - offset.toNat := by
    unfold sizeSub
    omega
  unfold nativeUtf8Write
  dsimp only
  rw [hoffset, hrest]
  by_cases hs : s.length = 0
  · obtain rfl := List.length_eq_zero_iff.mp hs
    exact ⟨_, if_pos hs, utf8Write_longest [] _⟩
  · refine ⟨_, (if_neg hs).trans (if_neg (by omega)), ?_⟩
    have hroom : min (length - offset.toNat) (match maxLength with
        | none => length - offset.toNat
        | some maxLength => uint32Value maxLength) = utf8Room length offset maxLength := by
      cases maxLength with
      | none => exact min_self _
      | some maxLength => rfl
    rw [← hroom]
    exact utf8Write_longest s _

/-- Two NULs of the string and one of the engine. -/
theorem nativeUtf8Write_longest_nul :
    ∃ r, nativeUtf8Write 8 [0x61, 0, 0] 3 none = .ok r ∧
      r.Longest [0x61, 0, 0] (utf8Room 8 3 none) :=
  nativeUtf8Write_longest (by decide) [0x61, 0, 0] (by decide) (by decide) none

/-! ### What is stored behind it -/

/-- A write changes no byte of the parent but those that it reports, which are behind the offset. -/
def Held.WritesReported (b : Held) (mem : Memory ℕ UInt8) (s : JSString) (offset : ℤ)
    (e : Encoding) : Prop :=
  ∀ r, b.write s offset e = .ok r → ∀ i : ℕ,
    i < b.offset + offset ∨ b.offset + offset + r.written ≤ i →
      mem.store b.parent r.position r.stored b.parent i = mem b.parent i

/-- The bytes where the terminator goes are zero already. -/
def Held.EndsZero (b : Held) (mem : Memory ℕ UInt8) (s : JSString) (offset : ℤ) (e : Encoding) :
    Prop :=
  ∀ i < (terminator e s (b.length - offset).toNat).length,
    mem b.parent ((b.offset + offset).toNat + (encode e s).length + i) = 0

section
variable (b : Held) (mem : Memory ℕ UInt8) (s : JSString) {offset : ℤ}

theorem Held.writesReported_base64 (h : 0 ≤ offset) (hlt : offset < b.length) :
    b.WritesReported mem s offset .base64 := by
  obtain ⟨ho, hn, hle, hmax⟩ := b.inside
  unfold kMaxLength at hmax
  intro r hr i hi
  simp only [Window.write, slowBase64Write] at hr
  cases hq : base64Write b.parentLength s (b.offset + offset) with
  | error err =>
    rw [hq] at hr
    cases hr
  | ok p =>
    rw [hq] at hr
    obtain rfl := Except.ok.inj hr
    have hposition : sizeOfInt (int32Value (b.offset + offset)) = b.offset + offset := by
      unfold sizeOfInt int32Value
      omega
    refine mem.store_outside _ _ _ ?_
    dsimp only at hi ⊢
    omega

/-- A write at an offset inside the window. -/
theorem Held.write_ok (h : 0 ≤ offset) (hlt : offset < b.length) {e : Encoding}
    (he : e ≠ .base64) :
    ∃ p, b.write s offset e = .ok ⟨unitWrite e s (b.length - offset).toNat, p⟩ ∧
      ((unitWrite e s (b.length - offset).toNat).stored ≠ [] → p = (b.offset + offset).toNat) := by
  obtain ⟨ho, hn, hle, hmax⟩ := b.inside
  unfold kMaxLength at hmax
  have hposition : b.position offset = (b.offset + offset).toNat := by
    unfold Window.position uint32Value
    omega
  have hroom : b.room (b.offset + offset).toNat = (b.length - offset).toNat := by
    unfold Window.room
    rw [if_pos (by omega)]
    omega
  rcases b.write_outcome he s offset with ⟨-, hbehind, -⟩ | ⟨-, p, hok, hp⟩
  · omega
  · rw [hposition, hroom] at hok hp
    exact ⟨p, hok, hp⟩

end

/-- A write changes nothing but what it reports, unless the NUL behind the text falls on a byte that
is not zero. -/
theorem Held.writesReported_iff (b : Held) (mem : Memory ℕ UInt8) (s : JSString) {offset : ℤ}
    (h : 0 ≤ offset) (hlt : offset < b.length) (e : Encoding) :
    b.WritesReported mem s offset e ↔ b.EndsZero mem s offset e := by
  by_cases he : e = .base64
  · subst he
    exact iff_of_true (b.writesReported_base64 mem s h hlt) fun i hi => absurd hi (Nat.not_lt_zero i)
  have ho := b.inside.offset_nonneg
  obtain ⟨p, hok, hp⟩ := b.write_ok s h hlt he
  have hsplit := unitWrite_stored he s (b.length - offset).toNat
  have hwhole := @written_of_terminator e he s (b.length - offset).toNat
  have hzero := @terminator_zero e s (b.length - offset).toNat
  have hexact := unitWrite_exact he s (b.length - offset).toNat
  have htake : ((unitWrite e s (b.length - offset).toNat).stored.take
      (unitWrite e s (b.length - offset).toNat).written).length =
      (unitWrite e s (b.length - offset).toNat).written := by
    rw [hexact.stored_take, hexact.written_eq]
  unfold Held.WritesReported Held.EndsZero
  generalize unitWrite e s (b.length - offset).toNat = w at *
  generalize terminator e s (b.length - offset).toNat = close at *
  have hlength : w.stored.length = w.written + close.length := by
    rw [hsplit, List.length_append, htake]
  constructor
  · intro hall i hi
    have hne : close ≠ [] := List.ne_nil_of_length_pos (by omega)
    have hstored : w.stored ≠ [] := List.ne_nil_of_length_pos (by omega)
    have hi' : w.written + i < w.stored.length := by omega
    have hbyte : w.stored[w.written + i] = 0 := by
      refine hzero _ ?_
      rw [List.getElem_of_eq hsplit, List.getElem_append_right (by omega)]
      exact List.getElem_mem _
    have hstore := mem.store_inside b.parent p w.stored hi'
    rw [hp hstored] at hstore
    have hsame := hall _ hok ((b.offset + offset).toNat + (w.written + i)) (by dsimp only; omega)
    dsimp only at hsame
    rw [hp hstored, hstore, hbyte] at hsame
    rw [← hwhole hne, Nat.add_assoc]
    exact hsame.symm
  · intro hend r hr i hi
    obtain rfl := Except.ok.inj (hok.symm.trans hr)
    dsimp only at hi ⊢
    by_cases hstored : w.stored = []
    · rw [hstored, Memory.store_nil]
    rw [hp hstored]
    by_cases hin : i < (b.offset + offset).toNat + w.written + close.length ∧
        (b.offset + offset).toNat + w.written ≤ i
    · obtain ⟨j, rfl⟩ := Nat.exists_eq_add_of_le hin.2
      have hne : close ≠ [] := List.ne_nil_of_length_pos (by omega)
      have hj : w.written + j < w.stored.length := by omega
      have hbyte : w.stored[w.written + j] = 0 := by
        refine hzero _ ?_
        rw [List.getElem_of_eq hsplit, List.getElem_append_right (by omega)]
        exact List.getElem_mem _
      rw [Nat.add_assoc, mem.store_inside b.parent _ w.stored hj, hbyte, hwhole hne,
        ← Nat.add_assoc]
      exact (hend j (by omega)).symm
    · exact mem.store_outside _ _ _ (by omega)

theorem Held.writesReported_iff_utf8 :
    fourBytes.WritesReported (fun _ _ => 0) (js "ab") 1 .utf8 ∧
      ¬ fourBytes.WritesReported (fun _ _ => 0xFF) (js "ab") 1 .utf8 := by
  constructor
  · exact (fourBytes.writesReported_iff (fun _ _ => 0) (js "ab") (by decide) (by decide) .utf8).mpr
      fun _ _ => rfl
  · intro h
    have hzero := (fourBytes.writesReported_iff (fun _ _ => 0xFF) (js "ab") (by decide) (by decide)
      .utf8).mp h 0 (by decide)
    exact absurd hzero (by decide)

/-- `write('a')` returns 1 and clears the second byte. -/
theorem Held.write_clears : ¬ ∀ (b : Held) (mem : Memory ℕ UInt8) (s : JSString) (offset : ℤ)
    (e : Encoding), 0 ≤ offset → offset < b.length → b.WritesReported mem s offset e := by
  intro h
  have hwrite : fourBytes.write (js "a") 0 .utf8 = .ok ⟨⟨[0x61, 0], 1, 1⟩, 0⟩ := rfl
  have hsame := h fourBytes (fun _ _ => 0xFF) (js "a") 0 .utf8 (by decide) (by decide) _ hwrite 1
    (.inr (by decide))
  exact absurd hsame (by decide)

end NodeJS
