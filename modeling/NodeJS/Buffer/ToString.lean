import NodeJS.Buffer.Base64Slice

/-! `Buffer.prototype.toString`. The slices for `'ascii'` and `'utf8'` are one and the same: both
let the engine decode UTF-8. Those for `'binary'` go byte by byte. -/
namespace NodeJS

open Lib.Utf8 Base64

/-- The bytes `data + start` up to `data + end`. -/
def sliceBytes (data : Bytes) (start stop : ℕ) : Bytes := (data.drop start).take (stop - start)

def binarySlice (data : Bytes) (start stop : ℤ) : Except SliceError JSString := do
  let (start, stop) ← sliceArgs data.length start stop
  return encodeString (sliceBytes data start stop) .binary

def asciiSlice (data : Bytes) (start stop : ℤ) : Except SliceError JSString := do
  let (start, stop) ← sliceArgs data.length start stop
  return utf8Slice (sliceBytes data start stop)

def slowUtf8Slice (data : Bytes) (start stop : ℤ) : Except SliceError JSString := do
  let (start, stop) ← sliceArgs data.length start stop
  return utf8Slice (sliceBytes data start stop)

def ucs2Units : Bytes → JSString
  | low :: high :: rest => (low.toUInt16 ||| high.toUInt16 <<< 8) :: ucs2Units rest
  | _ => []

def ucs2Slice (data : Bytes) (start stop : ℤ) : Except SliceError JSString := do
  let (start, stop) ← sliceArgs data.length start stop
  return ucs2Units (sliceBytes data start stop)

/-- `Buffer.prototype.toString` on a window of `data`. -/
def Window.toString (w : Window) (data : Bytes) (encoding : Encoding) (start stop : Option ℤ) :
    Except SliceError JSString :=
  let start := match start with
    | none => 0
    | some start => if start < 0 then 0 else if start > w.length then w.length else start
  let stop := match stop with
    | none => w.length
    | some stop => if stop > w.length then w.length else if stop < 0 then 0 else stop
  match encoding with
  | .utf8 => slowUtf8Slice data (start + w.offset) (stop + w.offset)
  | .ascii => asciiSlice data (start + w.offset) (stop + w.offset)
  | .binary => binarySlice data (start + w.offset) (stop + w.offset)
  | .base64 => base64Slice data (start + w.offset) (stop + w.offset)
  | .ucs2 => ucs2Slice data (start + w.offset) (stop + w.offset)

/-- The text put together by a callback that is called with one part after the other, as
`onURL` and `onHeaderValue` do. -/
def Window.assemble (w : Window) (data : Bytes) (encoding : Encoding) :
    ℕ → List ℕ → Except SliceError JSString
  | _, [] => .ok []
  | start, len :: lens => do
    let slice ← w.toString data encoding (some start) (some (start + len))
    let rest ← w.assemble data encoding (start + len) lens
    return slice ++ rest

/-- Decoding goes byte by byte: one character for each, however the bytes are cut. -/
structure Bytewise (b : Buffer) (data : Bytes) (encoding : Encoding) : Prop where
  length : ∃ s, b.toString data encoding none none = .ok s ∧ s.length = b.length
  cut : ∀ i : ℤ, 0 ≤ i → i ≤ b.length → ∃ s t,
    b.toString data encoding (some 0) (some i) = .ok s ∧
      b.toString data encoding (some i) (some b.length) = .ok t ∧
      b.toString data encoding (some 0) (some b.length) = .ok (s ++ t)
  assembled : ∀ lens : List ℕ, lens.sum = b.length →
    b.assemble data encoding 0 lens = b.toString data encoding none none

/-- A character of several bytes as the decoder of the engine takes it: nothing overlong, but
surrogates and what is beyond the last plane are not told apart. -/
def IsSequence : Bytes → Prop
  | [a, b] => 0xC2 ≤ a ∧ a < 0xE0 ∧ IsCont b
  | [a, b, c] => 0xE0 ≤ a ∧ a < 0xF0 ∧ IsCont b ∧ IsCont c ∧ (a = 0xE0 → 0xA0 ≤ b)
  | [a, b, c, d] =>
    0xF0 ≤ a ∧ a < 0xF8 ∧ IsCont b ∧ IsCont c ∧ IsCont d ∧ (a = 0xF0 → 0x90 ≤ b)
  | _ => False

/-- No bytes that stand side by side are such a character. -/
def NoSequence (s : Bytes) : Prop := ∀ pre c post, s = pre ++ (c ++ post) → ¬ IsSequence c

/-! ### Steps of the decoder -/

theorem calculateValue_not_cont {first : ℕ} {b : UInt8} (hb : ¬ IsCont b) (rest : List ℕ) :
    calculateValue first (b.toNat :: rest) = (kBadChar, 1) := by
  have hbits := (second_bits b).1.mpr hb
  unfold calculateValue
  simp only [hbits, ne_eq, not_false_eq_true, if_true]

/-- A second continuation byte is missing. -/
theorem calculateValue_not_cont_third {first : ℕ} (hfirst : 0xE0 ≤ first) (b : ℕ) {rest : Bytes}
    (hrest : ∀ c t, rest = c :: t → ¬ IsCont c) :
    calculateValue first (b :: rest.map UInt8.toNat) = (kBadChar, 1) := by
  unfold calculateValue
  dsimp only
  rw [if_neg (by omega : ¬ first < 0xE0)]
  cases rest with
  | nil => exact ite_self _
  | cons c t =>
    have hbits := (second_bits c).1.mpr (hrest c t rfl)
    simp only [List.map_cons, hbits, ne_eq, not_false_eq_true, if_true, ite_self]

/-- A third one is missing. -/
theorem calculateValue_not_cont_fourth {first : ℕ} (hfirst : 0xF0 ≤ first) (b c : ℕ) {rest : Bytes}
    (hrest : ∀ d t, rest = d :: t → ¬ IsCont d) :
    calculateValue first (b :: c :: rest.map UInt8.toNat) = (kBadChar, 1) := by
  unfold calculateValue
  dsimp only
  rw [if_neg (by omega : ¬ first < 0xE0), if_neg (by omega : ¬ first < 0xF0)]
  cases rest with
  | nil => simp only [List.map_nil, ite_self]
  | cons d t =>
    have hbits := (second_bits d).1.mpr (hrest d t rfl)
    simp only [List.map_cons, hbits, ne_eq, not_false_eq_true, if_true, ite_self]

section
variable {a b c d : UInt8} (rest : List ℕ)

theorem calculateValue_four (hb : IsCont b) (hc : IsCont c) (hd : IsCont d)
    (ha : 0xF0 ≤ a.toNat) :
    calculateValue a.toNat (b.toNat :: c.toNat :: d.toNat :: rest) =
      if a.toNat ≥ 0xF8 ∨ a.toNat = 0xF0 ∧ b.toNat < 0x90 then (kBadChar, 1) else
        ((a.toNat - 0xF0) * 262144 + (b.toNat - 0x80) * 4096 + (c.toNat - 0x80) * 64 +
          (d.toNat - 0x80), 4) := by
  obtain ⟨hbits, hval⟩ := second_bits b
  obtain ⟨hbits', hval'⟩ := second_bits c
  obtain ⟨hbits'', hval''⟩ := second_bits d
  obtain ⟨h80, hC0⟩ := (isCont_iff b).mp hb
  obtain ⟨h80', hC0'⟩ := (isCont_iff c).mp hc
  obtain ⟨h80'', hC0''⟩ := (isCont_iff d).mp hd
  have hmask : ∀ n, n &&& 0x1FFFFF = n % 2097152 := fun n => Nat.and_two_pow_sub_one_eq_mod n 21
  have hlt := UInt8.toNat_lt a
  unfold calculateValue
  dsimp only
  rw [if_neg (by rw [hbits]; simpa using hb), if_neg (by omega),
    if_neg (by rw [hbits']; simpa using hc), if_neg (by omega),
    if_neg (by rw [hbits'']; simpa using hd), hval hb, hval' hc, hval'' hd,
    shift_or (by omega), shift_or (by omega), shift_or (by omega), hmask]
  split_ifs <;> simp only [Prod.mk.injEq, and_true] <;> omega

end

/-- The bytes in front are a character of several bytes. -/
theorem starts_iff (a : UInt8) (rest : Bytes) :
    (∃ c post, a :: rest = c ++ post ∧ IsSequence c) ↔
      (∃ b post, rest = b :: post ∧ IsSequence [a, b]) ∨
      (∃ b c post, rest = b :: c :: post ∧ IsSequence [a, b, c]) ∨
      ∃ b c d post, rest = b :: c :: d :: post ∧ IsSequence [a, b, c, d] := by
  constructor
  · rintro ⟨s, post, he, hs⟩
    match s with
    | [x, b] =>
      obtain ⟨rfl, rfl⟩ := List.cons.inj he
      exact Or.inl ⟨b, post, rfl, hs⟩
    | [x, b, c] =>
      obtain ⟨rfl, rfl⟩ := List.cons.inj he
      exact Or.inr (Or.inl ⟨b, c, post, rfl, hs⟩)
    | [x, b, c, d] =>
      obtain ⟨rfl, rfl⟩ := List.cons.inj he
      exact Or.inr (Or.inr ⟨b, c, d, post, rfl, hs⟩)
  · rintro (⟨b, post, rfl, hs⟩ | ⟨b, c, post, rfl, hs⟩ | ⟨b, c, d, post, rfl, hs⟩)
    · exact ⟨[a, b], post, rfl, hs⟩
    · exact ⟨[a, b, c], post, rfl, hs⟩
    · exact ⟨[a, b, c, d], post, rfl, hs⟩

theorem IsSequence.length {s : Bytes} (h : IsSequence s) : 2 ≤ s.length := by
  match s with
  | [_, _] => simp
  | [_, _, _] => simp
  | [_, _, _, _] => simp

theorem isSequence_two {a b : UInt8} :
    IsSequence [a, b] ↔ 0xC2 ≤ a.toNat ∧ a.toNat < 0xE0 ∧ IsCont b := Iff.rfl

theorem isSequence_three {a b c : UInt8} : IsSequence [a, b, c] ↔
    0xE0 ≤ a.toNat ∧ a.toNat < 0xF0 ∧ IsCont b ∧ IsCont c ∧ (a.toNat = 0xE0 → 0xA0 ≤ b.toNat) := by
  rw [show a.toNat = 0xE0 ↔ a = 0xE0 from UInt8.toNat_inj (b := 0xE0)]
  rfl

theorem isSequence_four {a b c d : UInt8} : IsSequence [a, b, c, d] ↔
    0xF0 ≤ a.toNat ∧ a.toNat < 0xF8 ∧ IsCont b ∧ IsCont c ∧ IsCont d ∧
      (a.toNat = 0xF0 → 0x90 ≤ b.toNat) := by
  rw [show a.toNat = 0xF0 ↔ a = 0xF0 from UInt8.toNat_inj (b := 0xF0)]
  rfl

/-- The decoder takes a sequence whole, and one byte as a bad character where none starts. -/
theorem calculateValue_cases (a : UInt8) (rest : Bytes) :
    (calculateValue a.toNat (rest.map UInt8.toNat) = (kBadChar, 1) ∧
        ¬ ∃ c post, a :: rest = c ++ post ∧ IsSequence c) ∨
      1 < (calculateValue a.toNat (rest.map UInt8.toNat)).2 ∧
        ∃ c post, a :: rest = c ++ post ∧ IsSequence c := by
  rw [starts_iff]
  simp only [isSequence_two, isSequence_three, isSequence_four]
  rcases Nat.lt_or_ge a.toNat 0xE0 with h2 | h2
  · by_cases hb : ∃ b t, rest = b :: t ∧ IsCont b
    · obtain ⟨b, t, rfl, hb⟩ := hb
      rw [List.map_cons, calculateValue_two _ hb h2]
      split_ifs with hlow
      · left
        refine ⟨rfl, ?_⟩
        rintro (⟨-, -, -, h, -⟩ | ⟨-, -, -, -, h, -⟩ | ⟨-, -, -, -, -, h, -⟩) <;> omega
      · right
        exact ⟨Nat.one_lt_two, Or.inl ⟨b, t, rfl, by omega, h2, hb⟩⟩
    · left
      constructor
      · cases rest with
        | nil => rfl
        | cons b t => exact calculateValue_not_cont (fun h => hb ⟨b, t, rfl, h⟩) _
      · rintro (⟨b, t, rfl, -, -, h⟩ | ⟨-, -, -, -, h, -⟩ | ⟨-, -, -, -, -, h, -⟩)
        · exact hb ⟨b, t, rfl, h⟩
        · omega
        · omega
  · by_cases hbc : ∃ b c t, rest = b :: c :: t ∧ IsCont b ∧ IsCont c
    swap
    · left
      constructor
      · cases rest with
        | nil => rfl
        | cons b t =>
          by_cases hb : IsCont b
          · exact calculateValue_not_cont_third h2 _ (fun c u h hc => hbc ⟨b, c, u, by rw [h], hb, hc⟩)
          · exact calculateValue_not_cont hb _
      · rintro (⟨-, -, -, -, h, -⟩ | ⟨b, c, t, h, -, -, hb, hc, -⟩ | ⟨b, c, d, t, h, -, -, hb, hc, -⟩)
        · omega
        · exact hbc ⟨b, c, t, h, hb, hc⟩
        · exact hbc ⟨b, c, d :: t, h, hb, hc⟩
    obtain ⟨b, c, t, rfl, hb, hc⟩ := hbc
    rcases Nat.lt_or_ge a.toNat 0xF0 with h3 | h3
    · rw [List.map_cons, List.map_cons, calculateValue_three _ hb hc h2 h3]
      split_ifs with hlow
      · left
        refine ⟨rfl, ?_⟩
        rintro (⟨-, -, -, -, h, -⟩ | ⟨b', c', t', he, -, -, -, -, h⟩ | ⟨-, -, -, -, -, h, -⟩)
        · omega
        · obtain ⟨rfl, -⟩ := List.cons.inj he
          omega
        · omega
      · right
        exact ⟨Nat.one_lt_succ_succ _, Or.inr (Or.inl ⟨b, c, t, rfl, h2, h3, hb, hc, by omega⟩)⟩
    · by_cases hd : ∃ d u, t = d :: u ∧ IsCont d
      · obtain ⟨d, u, rfl, hd⟩ := hd
        rw [List.map_cons, List.map_cons, List.map_cons, calculateValue_four _ hb hc hd h3]
        split_ifs with hlow
        · left
          refine ⟨rfl, ?_⟩
          rintro (⟨-, -, -, -, h, -⟩ | ⟨-, -, -, -, -, h, -⟩ | ⟨b', c', d', u', he, -, h, -, -, -, h'⟩)
          · omega
          · omega
          · obtain ⟨rfl, -⟩ := List.cons.inj he
            omega
        · right
          exact ⟨Nat.one_lt_succ_succ _,
            Or.inr (Or.inr ⟨b, c, d, u, rfl, h3, by omega, hb, hc, hd, by omega⟩)⟩
      · left
        constructor
        · exact calculateValue_not_cont_fourth h3 _ _ (fun d u h hd' => hd ⟨d, u, h, hd'⟩)
        · rintro (⟨-, -, -, -, h, -⟩ | ⟨-, -, -, -, -, h, -⟩ | ⟨b', c', d', u', he, -, -, -, -, h, -⟩)
          · omega
          · omega
          · simp only [List.cons.injEq] at he
            exact hd ⟨d', u', he.2.2, h⟩

/-! ### Byte by byte -/

def loneChar (b : UInt8) : UInt16 := unitOf (if b.toNat ≤ 0x7F then b.toNat else kBadChar)

theorem nextChar_cases (a : UInt8) (rest : Bytes) :
    (unitOf (nextChar a.toNat (rest.map UInt8.toNat)).1 = loneChar a ∧
        (nextChar a.toNat (rest.map UInt8.toNat)).2 = 1 ∧
        ¬ ∃ c post, a :: rest = c ++ post ∧ IsSequence c) ∨
      1 < (nextChar a.toNat (rest.map UInt8.toNat)).2 ∧
        ∃ c post, a :: rest = c ++ post ∧ IsSequence c := by
  unfold nextChar loneChar
  split_ifs with ha
  · left
    refine ⟨rfl, rfl, ?_⟩
    rw [starts_iff]
    simp only [isSequence_two, isSequence_three, isSequence_four]
    rintro (⟨-, -, -, h, -⟩ | ⟨-, -, -, -, h, -⟩ | ⟨-, -, -, -, -, h, -⟩) <;> omega
  · rcases calculateValue_cases a rest with ⟨h, hno⟩ | h
    · left
      rw [h]
      exact ⟨rfl, rfl, hno⟩
    · right
      exact h

theorem noSequence_nil : NoSequence [] := by
  intro pre c post h
  have hnil : c = [] := by simp_all
  rw [hnil]
  exact id

theorem noSequence_cons (a : UInt8) (s : Bytes) :
    NoSequence (a :: s) ↔ (¬ ∃ c post, a :: s = c ++ post ∧ IsSequence c) ∧ NoSequence s := by
  constructor
  · intro h
    constructor
    · rintro ⟨c, post, he, hc⟩
      exact h [] c post he hc
    · intro pre c post he
      exact h (a :: pre) c post (by rw [he, List.cons_append])
  · rintro ⟨hno, hs⟩ pre c post he hc
    cases pre with
    | nil => exact hno ⟨c, post, he, hc⟩
    | cons x pre => exact hs pre c post (List.cons.inj he).2 hc

theorem NoSequence.of_append {s t u : Bytes} (h : NoSequence (s ++ (t ++ u))) : NoSequence t := by
  intro pre c post he
  refine h (s ++ pre) c (post ++ u) ?_
  rw [he]
  simp

/-- Where there are no sequences the text is decoded byte by byte. -/
theorem utf8Slice_of_noSequence {s : Bytes} (h : NoSequence s) : utf8Slice s = s.map loneChar := by
  induction s with
  | nil => rfl
  | cons a s ih =>
    obtain ⟨hno, hs⟩ := (noSequence_cons a s).mp h
    rcases nextChar_cases a s with ⟨hunit, hone, -⟩ | ⟨-, hyes⟩
    · rw [utf8Slice_cons, hunit, hone, List.drop_succ_cons, List.drop_zero, ih hs, List.map_cons]
    · exact absurd hyes hno

theorem length_utf8Slice_le (s : Bytes) : (utf8Slice s).length ≤ s.length := by
  induction hn : s.length using Nat.strong_induction_on generalizing s with
  | _ n ih =>
    cases s with
    | nil => simp
    | cons a s =>
      have hpos := nextChar_pos a.toNat (s.map UInt8.toNat)
      have hdrop : ((a :: s).drop (nextChar a.toNat (s.map UInt8.toNat)).2).length < n := by
        rw [List.length_drop, hn]
        simp only [List.length_cons] at hn
        omega
      have hle := ih _ hdrop _ rfl
      rw [utf8Slice_cons, List.length_cons]
      omega

/-- A character for every byte means that there are no sequences. -/
theorem length_utf8Slice_iff (s : Bytes) : (utf8Slice s).length = s.length ↔ NoSequence s := by
  constructor
  · intro h
    induction s with
    | nil => exact noSequence_nil
    | cons a s ih =>
      rw [utf8Slice_cons, List.length_cons, List.length_cons] at h
      rcases nextChar_cases a s with ⟨-, hone, hno⟩ | ⟨hmany, c, post, he, hc⟩
      · rw [hone, List.drop_succ_cons, List.drop_zero] at h
        exact (noSequence_cons a s).mpr ⟨hno, ih (by omega)⟩
      · exfalso
        have hle := length_utf8Slice_le ((a :: s).drop (nextChar a.toNat (s.map UInt8.toNat)).2)
        have hlen := congrArg List.length he
        have hc2 := hc.length
        rw [List.length_drop, List.length_cons] at hle
        simp only [List.length_cons, List.length_append] at hlen
        omega
  · intro h
    rw [utf8Slice_of_noSequence h, List.length_map]

/-! ### Buffers -/

theorem sliceArgs_ok {length : ℕ} {start stop : ℤ} (h0 : 0 ≤ start) (hle : start ≤ stop)
    (hlen : stop ≤ length) (hmax : length ≤ kMaxLength) :
    sliceArgs length start stop = .ok (start.toNat, stop.toNat) := by
  unfold kMaxLength at hmax
  unfold sliceArgs IsInt32
  rw [if_neg (by omega), if_neg (by omega), if_neg (by omega), if_neg (by omega)]

section
variable (b : Buffer) {data : Bytes} (hdata : data.length = b.parentLength) {e : Encoding}
  (he : e = .ascii ∨ e = .binary)
include hdata he

/-- Arguments within a Buffer need no clamping, and its slice is one of the parent. -/
theorem toString_eq {i j : ℤ} (h0 : 0 ≤ i) (hij : i ≤ j) (hj : j ≤ b.length) :
    b.toString data e (some i) (some j) =
      .ok (encodeString (sliceBytes (b.bytes data) i.toNat j.toNat) e) := by
  have hoff := b.inside.offset_nonneg
  have hparent := b.inside.le_parent
  have hmax := b.inside.parent_le
  have hargs : sliceArgs data.length (i + b.offset) (j + b.offset) =
      .ok ((i + b.offset).toNat, (j + b.offset).toNat) :=
    sliceArgs_ok (by omega) (by omega) (by omega) (by omega)
  have hbytes : sliceBytes data (i + b.offset).toNat (j + b.offset).toNat =
      sliceBytes (b.bytes data) i.toNat j.toNat := by
    unfold sliceBytes Window.bytes
    rw [List.drop_take, List.drop_drop, List.take_take]
    congr 1
    · omega
    · congr 1
      omega
  unfold Window.toString
  dsimp only
  rw [if_neg (by omega), if_neg (by omega), if_neg (by omega), if_neg (by omega)]
  rcases he with rfl | rfl
  · simp only [asciiSlice, hargs, bind, Except.bind, pure, Except.pure, hbytes]
    rfl
  · simp only [binarySlice, hargs, bind, Except.bind, pure, Except.pure, hbytes]

omit hdata in
theorem toString_none :
    b.toString data e none none = b.toString data e (some 0) (some b.length) := by
  have hlen := b.inside.length_nonneg
  rcases he with rfl | rfl <;>
    simp only [Window.toString, lt_irrefl, gt_iff_lt, if_false, if_neg (not_lt.mpr hlen)]

end

theorem sliceBytes_append {s : Bytes} {i j k : ℕ} (hij : i ≤ j) (hjk : j ≤ k) :
    sliceBytes s i j ++ sliceBytes s j k = sliceBytes s i k := by
  unfold sliceBytes
  have hdrop : s.drop j = (s.drop i).drop (j - i) := by
    rw [List.drop_drop]
    congr 1
    omega
  have hlen : k - i = (j - i) + (k - j) := by omega
  rw [hdrop, hlen, List.take_add]

section
variable (b : Buffer) {data : Bytes} (hdata : data.length = b.parentLength) {e : Encoding}
  (he : e = .ascii ∨ e = .binary)
include hdata he

theorem toString_whole :
    b.toString data e none none = .ok (encodeString (b.bytes data) e) := by
  have hlen := b.inside.length_bytes hdata
  rw [toString_none b he, toString_eq b hdata he (le_refl _) b.inside.length_nonneg (le_refl _)]
  congr 2
  unfold sliceBytes
  rw [Int.toNat_zero, List.drop_zero, List.take_of_length_le (by omega)]

variable {f : UInt8 → UInt16}
  (hf : ∀ i j, encodeString (sliceBytes (b.bytes data) i j) e =
    (sliceBytes (b.bytes data) i j).map f)
include hf

/-- Parts put together one after the other. -/
theorem assemble_of_map (lens : List ℕ) (start : ℕ) (h : start + lens.sum ≤ b.length) :
    b.assemble data e start lens =
      .ok ((sliceBytes (b.bytes data) start (start + lens.sum)).map f) := by
  induction lens generalizing start with
  | nil => simp [Window.assemble, sliceBytes]
  | cons len lens ih =>
    rw [List.sum_cons] at h
    have hcast : ((start : ℤ) + (len : ℤ)).toNat = start + len := by omega
    unfold Window.assemble
    rw [toString_eq b hdata he (by omega) (by omega) (by omega), ih (start + len) (by omega), hf,
      hcast, Int.toNat_natCast]
    simp only [bind, Except.bind, pure, Except.pure]
    rw [← List.map_append, sliceBytes_append (by omega) (by omega), List.sum_cons, Nat.add_assoc]

/-- A way to decode that treats every byte alike goes byte by byte. -/
theorem bytewise_of_map : Bytewise b data e := by
  have hlen := b.inside.length_bytes hdata
  have hall : sliceBytes (b.bytes data) 0 (b.bytes data).length = b.bytes data := by
    unfold sliceBytes
    rw [List.drop_zero, List.take_of_length_le (by omega)]
  have hwhole := toString_whole b hdata he
  rw [← hall, hf, hall] at hwhole
  refine ⟨⟨_, hwhole, ?_⟩, ?_, ?_⟩
  · rw [List.length_map, hlen]
  · intro i h0 hi
    refine ⟨_, _, toString_eq b hdata he (le_refl _) h0 hi,
      toString_eq b hdata he h0 hi (le_refl _), ?_⟩
    rw [toString_eq b hdata he (le_refl _) b.inside.length_nonneg (le_refl _), hf, hf, hf,
      ← List.map_append, sliceBytes_append (by omega) (by omega)]
  · intro lens hsum
    rw [assemble_of_map b hdata he hf lens 0 (by omega), hwhole]
    have hsum' : 0 + lens.sum = (b.bytes data).length := by omega
    rw [hsum', hall]

end

/-- Decoding with `'ascii'` and with `'binary'` goes byte by byte exactly on a Buffer without a
character of several bytes. -/
theorem bytewise_iff (b : Buffer) (data : Bytes) (hdata : data.length = b.parentLength) :
    Bytewise b data .ascii ∧ Bytewise b data .binary ↔ NoSequence (b.bytes data) := by
  constructor
  · rintro ⟨⟨⟨s, hs, hlen⟩, -, -⟩, -⟩
    rw [toString_whole b hdata (Or.inl rfl), Except.ok.injEq] at hs
    have hbytes := b.inside.length_bytes hdata
    apply (length_utf8Slice_iff _).mp
    have hs' : utf8Slice (b.bytes data) = s := hs
    rw [hs']
    omega
  · intro h
    constructor
    · apply bytewise_of_map b hdata (Or.inl rfl) (f := loneChar)
      intro i j
      apply utf8Slice_of_noSequence
      apply NoSequence.of_append (s := (b.bytes data).take i)
        (u := ((b.bytes data).drop i).drop (j - i))
      unfold sliceBytes
      rwa [List.take_append_drop, List.take_append_drop]
    · exact bytewise_of_map b hdata (Or.inr rfl) (f := UInt8.toUInt16) (fun _ _ => rfl)

def smallBuffer : Buffer where
  parentLength := 2
  offset := 0
  length := 2
  inside := ⟨le_refl _, by decide, by decide, by decide⟩

theorem bytewise_iff_plain :
    Bytewise smallBuffer [0x68, 0xE9] .ascii ∧ Bytewise smallBuffer [0x68, 0xE9] .binary ↔
      NoSequence (smallBuffer.bytes [0x68, 0xE9]) :=
  bytewise_iff smallBuffer [0x68, 0xE9] rfl

/-- A letter of two bytes is one character. -/
theorem not_bytewise_char : ¬ Bytewise smallBuffer [0xC3, 0xA9] .ascii := by
  rintro ⟨⟨s, hs, hlen⟩, -, -⟩
  have hchar : smallBuffer.toString [0xC3, 0xA9] .ascii none none = .ok [0xE9] := by
    decide +kernel
  rw [hchar, Except.ok.injEq] at hs
  rw [← hs] at hlen
  exact absurd hlen (by decide)

end NodeJS
