import NodeJS.Buffer.Encoding
import NodeJS.Lib.Utf8

/-! Reading UTF-8 back. The decoder of the engine never looks past the character it is at, so
a text can be decoded in pieces as long as it is cut between characters. -/
namespace NodeJS

open Lib.Utf8

/-- The value and the length of the character in front, as the decoder takes them. -/
def nextChar (first : ℕ) (rest : List ℕ) : ℕ × ℕ :=
  if first ≤ 0x7F then (first, 1) else calculateValue first rest

/-- The code unit the decoder makes of a value. -/
def unitOf (value : ℕ) : UInt16 := (if value > 0xFFFF then kBadChar else value).toUInt16

theorem utf8Chars_succ (fuel first : ℕ) (rest : List ℕ) :
    utf8Chars (fuel + 1) (first :: rest) =
      unitOf (nextChar first rest).1 ::
        utf8Chars fuel ((first :: rest).drop (nextChar first rest).2) := by
  rfl

theorem calculateValue_pos (first : ℕ) (rest : List ℕ) : 1 ≤ (calculateValue first rest).2 := by
  match rest with
  | [] => simp [calculateValue]
  | [x] =>
    simp only [calculateValue]
    split_ifs <;> simp
  | [x, y] =>
    simp only [calculateValue]
    split_ifs <;> simp
  | x :: y :: z :: rest =>
    simp only [calculateValue]
    split_ifs <;> simp

theorem nextChar_pos (first : ℕ) (rest : List ℕ) : 1 ≤ (nextChar first rest).2 := by
  unfold nextChar
  split_ifs
  · simp
  · exact calculateValue_pos first rest

theorem utf8Chars_fuel (fuel : ℕ) (s : List ℕ) (h : s.length ≤ fuel) :
    utf8Chars fuel s = utf8Chars s.length s := by
  induction fuel using Nat.strong_induction_on generalizing s with
  | _ fuel ih =>
    cases s with
    | nil => cases fuel <;> rfl
    | cons first rest =>
      obtain ⟨fuel, rfl⟩ : ∃ m, fuel = m + 1 := ⟨fuel - 1, by simp at h; omega⟩
      simp only [List.length_cons] at h
      have hpos := nextChar_pos first rest
      have hdrop : ((first :: rest).drop (nextChar first rest).2).length ≤ rest.length := by
        simp only [List.length_drop, List.length_cons]
        omega
      rw [List.length_cons, utf8Chars_succ, utf8Chars_succ,
        ih fuel (by omega) _ (by omega)]
      rcases Nat.lt_or_ge rest.length (fuel + 1) with hlt | hge
      · rw [ih rest.length hlt _ hdrop]
      · omega

/-- One step of the decoder. -/
theorem utf8Slice_cons (b : UInt8) (s : Bytes) :
    utf8Slice (b :: s) =
      unitOf (nextChar b.toNat (s.map UInt8.toNat)).1 ::
        utf8Slice ((b :: s).drop (nextChar b.toNat (s.map UInt8.toNat)).2) := by
  unfold utf8Slice
  rw [List.length_cons, List.map_cons, utf8Chars_succ, ← List.map_cons, ← List.map_drop]
  rw [utf8Chars_fuel s.length, List.length_map]
  have hpos := nextChar_pos b.toNat (s.map UInt8.toNat)
  simp only [List.length_map, List.length_drop, List.length_cons]
  omega

@[simp] theorem utf8Slice_nil : utf8Slice [] = [] := rfl

theorem toNat_le_of_ascii {b : UInt8} (h : b < 0x80) : b.toNat ≤ 0x7F := by
  have h' := UInt8.lt_iff_toNat_lt.mp h
  simp only [UInt8.reduceToNat] at h'
  omega

theorem utf8Slice_cons_ascii {b : UInt8} (h : b < 0x80) (s : Bytes) :
    utf8Slice (b :: s) = b.toUInt16 :: utf8Slice s := by
  have hb := toNat_le_of_ascii h
  have hn : nextChar b.toNat (s.map UInt8.toNat) = (b.toNat, 1) := by simp [nextChar, hb]
  have hu : unitOf b.toNat = b.toUInt16 := by
    have hle : ¬ b.toNat > 0xFFFF := by omega
    simp [unitOf, hle]
  rw [utf8Slice_cons, hn]
  simp only [hu, List.drop_succ_cons, List.drop_zero]

/-- ASCII is read byte by byte. -/
theorem utf8Slice_ascii {s : Bytes} (h : ∀ b ∈ s, b < 0x80) :
    utf8Slice s = s.map UInt8.toUInt16 := by
  induction s with
  | nil => rfl
  | cons b s ih =>
    rw [utf8Slice_cons_ascii (h b (by simp)), ih (fun x hx => h x (by simp [hx])), List.map_cons]

/-- A continuation byte out of place is one bad character, whatever follows. -/
theorem utf8Slice_cons_cont {b : UInt8} (h : IsCont b) (s : Bytes) :
    utf8Slice (b :: s) = unitOf kBadChar :: utf8Slice s := by
  have h80 := UInt8.le_iff_toNat_le.mp h.1
  have hC0 := UInt8.lt_iff_toNat_lt.mp h.2
  simp only [UInt8.reduceToNat] at h80 hC0
  have hn : nextChar b.toNat (s.map UInt8.toNat) = (kBadChar, 1) := by
    have h1 : ¬ b.toNat ≤ 0x7F := by omega
    have h2 : b.toNat < 0xE0 := by omega
    simp only [nextChar, h1, if_false]
    cases s <;> simp [calculateValue, h2, hC0]
  rw [utf8Slice_cons, hn]
  rfl

theorem utf8Slice_conts {s : Bytes} (h : ∀ b ∈ s, IsCont b) (t : Bytes) :
    utf8Slice (s ++ t) = utf8Slice s ++ utf8Slice t := by
  induction s with
  | nil => simp
  | cons b s ih =>
    have hb := h b (by simp)
    rw [List.cons_append, utf8Slice_cons_cont hb, utf8Slice_cons_cont hb,
      ih (fun x hx => h x (by simp [hx])), List.cons_append]

/-- The bytes a character announces are all the decoder looks at, and it takes all of them or
the first one only. -/
theorem calculateValue_announced {b : UInt8} {tail : Bytes}
    (h : announced b = some (tail.length + 1)) (hb : ¬ b.toNat ≤ 0x7F) (s : Bytes) :
    calculateValue b.toNat ((tail ++ s).map UInt8.toNat) =
        calculateValue b.toNat (tail.map UInt8.toNat) ∧
      ((calculateValue b.toNat (tail.map UInt8.toNat)).2 = 1 ∨
        (calculateValue b.toNat (tail.map UInt8.toNat)).2 = tail.length + 1) := by
  unfold announced at h
  simp only [UInt8.lt_iff_toNat_lt, UInt8.reduceToNat] at h
  split_ifs at h with h1 h2 h3 h4 h5
  · omega
  · simp only [Option.some.injEq] at h
    obtain ⟨x, rfl⟩ := List.length_eq_one_iff.mp (show tail.length = 1 by omega)
    simp only [List.map_cons, List.map_nil, List.cons_append, List.nil_append, calculateValue, h3,
      if_true]
    split_ifs <;> simp
  · simp only [Option.some.injEq] at h
    obtain ⟨x, y, rfl⟩ := List.length_eq_two.mp (show tail.length = 2 by omega)
    simp only [List.map_cons, List.map_nil, List.cons_append, List.nil_append, calculateValue, h3,
      h4, if_true, if_false]
    split_ifs <;> simp
  · simp only [Option.some.injEq] at h
    obtain ⟨x, y, z, rfl⟩ := List.length_eq_three.mp (show tail.length = 3 by omega)
    simp only [List.map_cons, List.map_nil, List.cons_append, List.nil_append, calculateValue, h3,
      h4, if_false]
    split_ifs <;> simp

theorem utf8Slice_char {c : Bytes} (h : IsChar c) (s : Bytes) :
    utf8Slice (c ++ s) = utf8Slice c ++ utf8Slice s := by
  cases c with
  | nil => exact h.elim
  | cons b tail =>
    obtain ⟨hn, hcont⟩ := h
    rw [List.cons_append]
    by_cases hb : b.toNat ≤ 0x7F
    · have hlt : b < 0x80 := by
        rw [UInt8.lt_iff_toNat_lt]
        simp only [UInt8.reduceToNat]
        omega
      rw [utf8Slice_cons_ascii hlt, utf8Slice_cons_ascii hlt, utf8Slice_conts hcont,
        List.cons_append]
    · obtain ⟨heq, hcount⟩ := calculateValue_announced hn hb s
      rw [utf8Slice_cons, utf8Slice_cons]
      simp only [nextChar, hb, if_false, heq]
      rcases hcount with h1 | hall
      · simp only [h1, List.drop_succ_cons, List.drop_zero, List.cons_append]
        rw [utf8Slice_conts hcont]
      · simp only [hall, List.drop_succ_cons, List.drop_length, List.drop_left, utf8Slice_nil,
          List.cons_append, List.nil_append]

/-- Decoding whole characters first and the rest afterwards is decoding all at once. -/
theorem utf8Slice_append {s : Bytes} (h : Whole s) (t : Bytes) :
    utf8Slice (s ++ t) = utf8Slice s ++ utf8Slice t := by
  obtain ⟨cs, rfl, hcs⟩ := h
  induction cs with
  | nil => simp
  | cons c cs ih =>
    have hc := hcs c (by simp)
    rw [List.flatten_cons, List.append_assoc, utf8Slice_char hc, utf8Slice_char hc,
      ih (fun d hd => hcs d (by simp [hd])), List.append_assoc]

/-! ### The value of a character -/

theorem second_bits (b : UInt8) :
    ((b.toNat ^^^ 0x80) &&& 0xC0 ≠ 0 ↔ ¬ IsCont b) ∧
      (IsCont b → b.toNat ^^^ 0x80 = b.toNat - 0x80) := by
  revert b
  exact forall_byte (by decide +kernel)

theorem shift_or {x y : ℕ} (hy : y < 64) : x <<< 6 ||| y = x * 64 + y := by
  rw [← Nat.shiftLeft_add_eq_or_of_lt hy, Nat.shiftLeft_eq]

theorem isCont_iff (b : UInt8) : IsCont b ↔ 0x80 ≤ b.toNat ∧ b.toNat < 0xC0 := by
  unfold IsCont
  rw [UInt8.le_iff_toNat_le, UInt8.lt_iff_toNat_lt]
  rfl

section
variable {a b c : UInt8} (rest : List ℕ)

theorem calculateValue_two (hb : IsCont b) (ha : a.toNat < 0xE0) :
    calculateValue a.toNat (b.toNat :: rest) =
      if a.toNat < 0xC2 then (kBadChar, 1) else ((a.toNat - 0xC0) * 64 + (b.toNat - 0x80), 2) := by
  obtain ⟨hbits, hval⟩ := second_bits b
  obtain ⟨h80, hC0⟩ := (isCont_iff b).mp hb
  have hmask : ∀ n, n &&& 0x7FF = n % 2048 := fun n => Nat.and_two_pow_sub_one_eq_mod n 11
  unfold calculateValue
  dsimp only
  rw [if_neg (by rw [hbits]; simpa using hb), if_pos ha, hval hb, shift_or (by omega), hmask]
  split_ifs <;> simp only [Prod.mk.injEq, and_true] <;> omega

theorem calculateValue_three (hb : IsCont b) (hc : IsCont c) (ha : 0xE0 ≤ a.toNat)
    (ha' : a.toNat < 0xF0) :
    calculateValue a.toNat (b.toNat :: c.toNat :: rest) =
      if a.toNat = 0xE0 ∧ b.toNat < 0xA0 then (kBadChar, 1) else
        ((a.toNat - 0xE0) * 4096 + (b.toNat - 0x80) * 64 + (c.toNat - 0x80), 3) := by
  obtain ⟨hbits, hval⟩ := second_bits b
  obtain ⟨hbits', hval'⟩ := second_bits c
  obtain ⟨h80, hC0⟩ := (isCont_iff b).mp hb
  obtain ⟨h80', hC0'⟩ := (isCont_iff c).mp hc
  have hmask : ∀ n, n &&& 0xFFFF = n % 65536 := fun n => Nat.and_two_pow_sub_one_eq_mod n 16
  unfold calculateValue
  dsimp only
  rw [if_neg (by rw [hbits]; simpa using hb), if_neg (by omega),
    if_neg (by rw [hbits']; simpa using hc), if_pos ha', hval hb, hval' hc, shift_or (by omega),
    shift_or (by omega), hmask]
  split_ifs <;> simp only [Prod.mk.injEq, and_true] <;> omega

end

/-! ### What was written is read back -/

theorem toNat_contByte (x : UInt16) :
    ((0x80 : UInt16) ||| x &&& ~~~((1 : UInt16) <<< 6)).toUInt8.toNat = 0x80 + x.toNat % 64 := by
  have hall : ∀ y < 256, 0x80 ||| (y &&& 0xBF) = 0x80 + y % 64 := by decide +kernel
  have hmask : (~~~((1 : UInt16) <<< 6)).toNat = 0xFFBF := by decide
  rw [UInt16.toNat_toUInt8, UInt16.toNat_or, UInt16.toNat_and, hmask, Nat.or_mod_two_pow,
    Nat.and_mod_two_pow]
  have hy := hall (x.toNat % 2 ^ 8) (Nat.mod_lt _ (by decide))
  rw [Nat.mod_mod_of_dvd _ (by decide : 64 ∣ 2 ^ 8)] at hy
  exact hy

theorem map_toNat_utf8Unit (c : UInt16) :
    (utf8Unit c).map UInt8.toNat =
      if c ≤ 0x7f then [c.toNat]
      else if c ≤ 0x7ff then [0xC0 + c.toNat / 64, 0x80 + c.toNat % 64]
      else [0xE0 + c.toNat / 4096, 0x80 + c.toNat / 64 % 64, 0x80 + c.toNat % 64] := by
  have hlt := c.toNat_lt
  unfold utf8Unit
  dsimp only
  split_ifs with h1 h2
  · simp only [UInt16.le_iff_toNat_le, UInt16.reduceToNat] at h1
    rw [List.map_singleton, UInt16.toNat_toUInt8, Nat.mod_eq_of_lt (by omega)]
  · simp only [UInt16.le_iff_toNat_le, UInt16.reduceToNat] at h1 h2
    have hlead : ∀ a < 32, (0xC0 ||| a) % 2 ^ 8 = 0xC0 + a := by decide
    have hshift : (c >>> 6).toNat = c.toNat / 64 := by
      rw [UInt16.toNat_shiftRight]
      exact Nat.shiftRight_eq_div_pow _ _
    rw [List.map_cons, List.map_singleton, toNat_contByte, UInt16.toNat_toUInt8, UInt16.toNat_or,
      hshift]
    have ha := hlead (c.toNat / 64) (by omega)
    exact congrArg (· :: [0x80 + c.toNat % 64]) ha
  · have hlead : ∀ a < 16, (0xE0 ||| a) % 2 ^ 8 = 0xE0 + a := by decide
    have hshift : (c >>> 12).toNat = c.toNat / 4096 := by
      rw [UInt16.toNat_shiftRight]
      exact Nat.shiftRight_eq_div_pow _ _
    have hshift' : (c >>> 6).toNat = c.toNat / 64 := by
      rw [UInt16.toNat_shiftRight]
      exact Nat.shiftRight_eq_div_pow _ _
    rw [List.map_cons, List.map_cons, List.map_singleton, toNat_contByte, toNat_contByte,
      UInt16.toNat_toUInt8, UInt16.toNat_or, hshift, hshift']
    have ha := hlead (c.toNat / 4096) (by omega)
    exact congrArg (· :: [0x80 + c.toNat / 64 % 64, 0x80 + c.toNat % 64]) ha

theorem isCont_of_toNat {b : UInt8} {d : ℕ} (hd : d < 64) (h : b.toNat = 0x80 + d) : IsCont b :=
  (isCont_iff b).mpr ⟨by omega, by omega⟩

/-- A character that is not ASCII and stands alone. -/
theorem utf8Slice_value {b : UInt8} {tail : Bytes} {c : UInt16} (hb : ¬ b.toNat ≤ 0x7F)
    (h : calculateValue b.toNat (tail.map UInt8.toNat) = (c.toNat, tail.length + 1)) :
    utf8Slice (b :: tail) = [c] := by
  have hlt := c.toNat_lt
  have hnext : nextChar b.toNat (tail.map UInt8.toNat) = (c.toNat, tail.length + 1) := by
    rw [nextChar, if_neg hb, h]
  have hunit : unitOf c.toNat = c := by
    rw [unitOf, if_neg (by omega)]
    exact UInt16.ofNat_toNat
  rw [utf8Slice_cons, hnext, hunit, List.drop_succ_cons, List.drop_length, utf8Slice_nil]

/-- The engine reads back every code unit that it wrote, surrogates included. -/
theorem utf8Slice_utf8Unit (c : UInt16) :
    IsChar (utf8Unit c) ∧ utf8Slice (utf8Unit c) = [c] := by
  have hlt := c.toNat_lt
  have hmap := map_toNat_utf8Unit c
  by_cases h1 : c ≤ 0x7f
  · have hle := UInt16.le_iff_toNat_le.mp h1
    simp only [UInt16.reduceToNat] at hle
    have hascii : c < 0x80 := by
      rw [UInt16.lt_iff_toNat_lt]
      show c.toNat < 0x80
      omega
    have hbyte : (lowByte c).toNat = c.toNat := by
      rw [lowByte, UInt16.toNat_toUInt8]
      exact Nat.mod_eq_of_lt (by omega)
    have hlow : lowByte c < 0x80 := by
      rw [UInt8.lt_iff_toNat_lt, hbyte]
      show c.toNat < 0x80
      omega
    have hunit : (lowByte c).toUInt16 = c :=
      UInt16.toNat_inj.mp ((UInt8.toNat_toUInt16 _).trans hbyte)
    rw [utf8Unit_ascii hascii, utf8Slice_cons_ascii hlow, utf8Slice_nil, hunit]
    exact ⟨⟨if_pos hlow, by simp⟩, rfl⟩
  rw [if_neg h1] at hmap
  have hle := h1
  simp only [UInt16.le_iff_toNat_le, UInt16.reduceToNat] at hle
  by_cases h2 : c ≤ 0x7ff
  · rw [if_pos h2] at hmap
    simp only [UInt16.le_iff_toNat_le, UInt16.reduceToNat] at h2
    obtain ⟨b, tail, hbytes, hb, htail⟩ := List.map_eq_cons_iff.mp hmap
    obtain ⟨d, rest, rfl, hd, hrest⟩ := List.map_eq_cons_iff.mp htail
    obtain rfl := List.map_eq_nil_iff.mp hrest
    have hcont : IsCont d := isCont_of_toNat (Nat.mod_lt _ (by decide)) hd
    have hvalue : calculateValue b.toNat [d.toNat] = (c.toNat, 2) := by
      rw [calculateValue_two [] hcont (by omega), if_neg (by omega), hb, hd]
      exact Prod.ext (by dsimp only; omega) rfl
    rw [hbytes]
    refine ⟨⟨?_, by simpa using hcont⟩, utf8Slice_value (by omega) hvalue⟩
    unfold announced
    simp only [UInt8.lt_iff_toNat_lt, UInt8.reduceToNat]
    rw [if_neg (by omega), if_neg (by omega), if_pos (by omega)]
    rfl
  · rw [if_neg h2] at hmap
    simp only [UInt16.le_iff_toNat_le, UInt16.reduceToNat] at h2
    obtain ⟨b, tail, hbytes, hb, htail⟩ := List.map_eq_cons_iff.mp hmap
    obtain ⟨m, rest, rfl, hm, hrest⟩ := List.map_eq_cons_iff.mp htail
    obtain ⟨d, rest, rfl, hd, hrest⟩ := List.map_eq_cons_iff.mp hrest
    obtain rfl := List.map_eq_nil_iff.mp hrest
    have hcont : IsCont m := isCont_of_toNat (Nat.mod_lt _ (by decide)) hm
    have hcont' : IsCont d := isCont_of_toNat (Nat.mod_lt _ (by decide)) hd
    have hvalue : calculateValue b.toNat [m.toNat, d.toNat] = (c.toNat, 3) := by
      rw [calculateValue_three [] hcont hcont' (by omega) (by omega), if_neg (by omega), hb, hm, hd]
      exact Prod.ext (by dsimp only; omega) rfl
    rw [hbytes]
    refine ⟨⟨?_, ?_⟩, utf8Slice_value (by omega) hvalue⟩
    · unfold announced
      simp only [UInt8.lt_iff_toNat_lt, UInt8.reduceToNat]
      rw [if_neg (by omega), if_neg (by omega), if_neg (by omega), if_pos (by omega)]
      rfl
    · simpa using ⟨hcont, hcont'⟩

/-- A string that was written in UTF-8 is read back. -/
theorem utf8Slice_encode (s : JSString) : utf8Slice (s.flatMap utf8Unit) = s := by
  induction s with
  | nil => rfl
  | cons c s ih =>
    obtain ⟨hchar, hslice⟩ := utf8Slice_utf8Unit c
    rw [List.flatMap_cons, utf8Slice_char hchar, hslice, ih, List.singleton_append]

end NodeJS
