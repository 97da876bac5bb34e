import NodeJS.Buffer.Text
import Mathlib.Tactic.IntervalCases

/-! The base64 half of `node_buffer.cc`: the size estimate, the decoding loop of
`Buffer::Base64Write`, and how far the two agree. -/
namespace NodeJS.Base64

def unbase64Table : List ℤ :=
  [-1,-1,-1,-1,-1,-1,-1,-1,-1,-1,-2,-1,-1,-2,-1,-1
  ,-1,-1,-1,-1,-1,-1,-1,-1,-1,-1,-1,-1,-1,-1,-1,-1
  ,-2,-1,-1,-1,-1,-1,-1,-1,-1,-1,-1,62,-1,-1,-1,63
  ,52,53,54,55,56,57,58,59,60,61,-1,-1,-1,-1,-1,-1
  ,-1, 0, 1, 2, 3, 4, 5, 6, 7, 8, 9,10,11,12,13,14
  ,15,16,17,18,19,20,21,22,23,24,25,-1,-1,-1,-1,-1
  ,-1,26,27,28,29,30,31,32,33,34,35,36,37,38,39,40
  ,41,42,43,44,45,46,47,48,49,50,51,-1,-1,-1,-1,-1
  ,-1,-1,-1,-1,-1,-1,-1,-1,-1,-1,-1,-1,-1,-1,-1,-1
  ,-1,-1,-1,-1,-1,-1,-1,-1,-1,-1,-1,-1,-1,-1,-1,-1
  ,-1,-1,-1,-1,-1,-1,-1,-1,-1,-1,-1,-1,-1,-1,-1,-1
  ,-1,-1,-1,-1,-1,-1,-1,-1,-1,-1,-1,-1,-1,-1,-1,-1
  ,-1,-1,-1,-1,-1,-1,-1,-1,-1,-1,-1,-1,-1,-1,-1,-1
  ,-1,-1,-1,-1,-1,-1,-1,-1,-1,-1,-1,-1,-1,-1,-1,-1
  ,-1,-1,-1,-1,-1,-1,-1,-1,-1,-1,-1,-1,-1,-1,-1,-1
  ,-1,-1,-1,-1,-1,-1,-1,-1,-1,-1,-1,-1,-1,-1,-1,-1]

def unbase64 (x : UInt8) : ℤ := unbase64Table.getD x.toNat (-1)

/-- `'='` -/
def pad : UInt8 := 0x3d

/-- A `size_t` with a record of whether its computation has wrapped around. -/
structure SizeT where
  val : ℕ
  wrapped : Bool
  deriving DecidableEq

/-- `size--` -/
def SizeT.dec (s : SizeT) : SizeT :=
  if s.val = 0 then ⟨2 ^ 64 - 1, true⟩ else ⟨s.val - 1, s.wrapped⟩

/-- First half of `base64_decoded_size`: what the length alone says. -/
def unpaddedSize (length : ℕ) : ℕ :=
  let remainder := length % 4
  let size := length / 4 * 3
  if remainder ≠ 0 then
    -- special case: 1-byte input cannot be decoded
    if size = 0 ∧ remainder = 1 then 0
    -- non-padded input, add 1 or 2 extra bytes
    else size + (1 + if remainder = 3 then 1 else 0)
  else size

/-- `base64_decoded_size`. The product and the sum above stay below the length of the
input, so only the two decrements for trailing padding can leave the range of a `size_t`. -/
def base64DecodedSize (src : Bytes) : SizeT :=
  let size : SizeT := ⟨unpaddedSize src.length, false⟩
  if size.val > 0 then
    let size := if src[src.length - 1]? = some pad then size.dec else size
    if src[src.length - 2]? = some pad then size.dec else size
  else size

/-- `*src`, which reads the closing NUL at the end of the string. -/
def deref (src : Bytes) : UInt8 := src.headD 0

/-- The inner loop `while (unbase64(*src) < 0 && src < srcEnd)`. -/
def skip : Bytes → ℤ → Bytes × ℤ
  | [], remaining => ([], remaining)
  | c :: src, remaining =>
    if unbase64 c < 0 then skip src (remaining - 1) else (c :: src, remaining)

/-- A table entry stored in a `char`. -/
def digit (c : UInt8) : UInt8 := UInt8.ofNat (unbase64 c).toNat

/-- One round of the decoding loop: the bytes stored through `dst`, and the rest of the
input unless the round ended in `break`. -/
def decodeRound (src : Bytes) : Bytes × Option Bytes :=
  let remaining : ℤ := src.length
  let (src, remaining) := skip src remaining
  if remaining = 0 ∨ deref src = pad then ([], none) else
  let a := digit (deref src)
  let (src, remaining) := skip src.tail remaining
  if remaining ≤ 1 ∨ deref src = pad then ([], none) else
  let b := digit (deref src)
  let out := [(a <<< 2) ||| ((b &&& 0x30) >>> 4)]
  let (src, remaining) := skip src.tail remaining
  if remaining ≤ 2 ∨ deref src = pad then (out, none) else
  let c := digit (deref src)
  let out := out ++ [((b &&& 0x0F) <<< 4) ||| ((c &&& 0x3C) >>> 2)]
  let (src, remaining) := skip src.tail remaining
  if remaining ≤ 3 ∨ deref src = pad then (out, none) else
  let d := digit (deref src)
  (out ++ [((c &&& 0x03) <<< 6) ||| (d &&& 0x3F)], some src.tail)

/-- `while (src < srcEnd)`; every round that does not break consumes four characters. -/
def decodeRounds : ℕ → Bytes → Bytes
  | 0, _ => []
  | _ + 1, [] => []
  | fuel + 1, src =>
    match decodeRound src with
    | (out, none) => out
    | (out, some src) => out ++ decodeRounds fuel src

/-- All bytes the decoding loop stores for `src`. -/
def decode (src : Bytes) : Bytes := decodeRounds src.length src

/-- `Value::Int32Value` of an integral number. -/
def int32Value (x : ℤ) : ℤ := (x + 2 ^ 31) % 2 ^ 32 - 2 ^ 31

/-- An `int32_t` stored in a `size_t`. -/
def sizeOfInt (x : ℤ) : ℕ := (x % 2 ^ 64).toNat

inductive WriteError
  | offsetOutOfBounds
  | bufferTooSmall
  deriving DecidableEq

/-- `Buffer::Base64Write` on a buffer of `length` bytes: the bytes stored from
`data_ + offset` on, or the exception. -/
def base64Write (length : ℕ) (string : JSString) (offset : ℤ) : Except WriteError Bytes :=
  let s := asciiValue string
  let offset := sizeOfInt (int32Value offset)
  if offset = 0 ∧ length = 0 then .ok []
  else if offset ≥ length then .error .offsetOutOfBounds
  else if (base64DecodedSize s).val > length - offset then .error .bufferTooSmall
  else .ok (decode s)

/-! ### The decoding loop reads the alphabet characters and nothing else -/

/-- Characters of the base64 alphabet. -/
def IsAlpha (c : UInt8) : Prop := 0 ≤ unbase64 c

instance (c : UInt8) : Decidable (IsAlpha c) := inferInstanceAs (Decidable (_ ≤ _))

def alphabet (src : Bytes) : Bytes := src.filter fun c => IsAlpha c

/-- What a string of alphabet characters stands for, four characters at a time. -/
def decodeDigits : Bytes → Bytes
  | a :: b :: c :: d :: rest =>
    ((digit a <<< 2) ||| ((digit b &&& 0x30) >>> 4)) ::
      (((digit b &&& 0x0F) <<< 4) ||| ((digit c &&& 0x3C) >>> 2)) ::
      (((digit c &&& 0x03) <<< 6) ||| (digit d &&& 0x3F)) :: decodeDigits rest
  | [a, b, c] =>
    [(digit a <<< 2) ||| ((digit b &&& 0x30) >>> 4),
      ((digit b &&& 0x0F) <<< 4) ||| ((digit c &&& 0x3C) >>> 2)]
  | [a, b] => [(digit a <<< 2) ||| ((digit b &&& 0x30) >>> 4)]
  | _ => []

theorem length_decodeDigits (ds : Bytes) : (decodeDigits ds).length = ds.length * 3 / 4 := by
  fun_induction decodeDigits ds with
  | case1 a b c d rest ih => simp only [List.length_cons, ih]; omega
  | case2 => simp
  | case3 => simp
  | case4 ds h4 h3 h2 =>
    match ds with
    | [] => simp
    | [_] => simp
    | [a, b] => exact absurd rfl (h2 a b)
    | [a, b, c] => exact absurd rfl (h3 a b c)
    | a :: b :: c :: d :: rest => exact absurd rfl (h4 a b c d rest)

theorem not_isAlpha_pad : ¬ IsAlpha pad := by decide

@[simp] theorem alphabet_nil : alphabet [] = [] := rfl

@[simp] theorem alphabet_append (s t : Bytes) : alphabet (s ++ t) = alphabet s ++ alphabet t :=
  List.filter_append ..

theorem alphabet_cons_pos {c : UInt8} (h : IsAlpha c) (src : Bytes) :
    alphabet (c :: src) = c :: alphabet src := by
  simp [alphabet, h]

theorem alphabet_cons_neg {c : UInt8} (h : ¬ IsAlpha c) (src : Bytes) :
    alphabet (c :: src) = alphabet src := by
  simp [alphabet, h]

/-- The inner loop stops at the next alphabet character or at the end of the input, and
`remaining` keeps counting from the start of the round. -/
theorem skip_cases (src : Bytes) (used remaining : ℤ) (h : remaining = src.length + used) :
    (alphabet src = [] ∧ skip src remaining = ([], used)) ∨
    ∃ c rest, IsAlpha c ∧ alphabet src = c :: alphabet rest ∧ rest.length < src.length ∧
      skip src remaining = (c :: rest, rest.length + 1 + used) := by
  induction src generalizing remaining with
  | nil => left; simp [skip, h]
  | cons c src ih =>
    by_cases hc : IsAlpha c
    · refine Or.inr ⟨c, src, hc, alphabet_cons_pos hc src, by simp, ?_⟩
      have hn : ¬ unbase64 c < 0 := not_lt.mpr hc
      simp [skip, hn, h]
    · have hn : unbase64 c < 0 := not_le.mp hc
      have hs : skip (c :: src) remaining = skip src (remaining - 1) := by simp [skip, hn]
      rw [hs, alphabet_cons_neg hc]
      rcases ih (remaining - 1) (by simp [h]; omega) with
        h | ⟨d, rest, hd, ha, hl, hr⟩
      · exact Or.inl h
      · exact Or.inr ⟨d, rest, hd, ha, by simp only [List.length_cons]; omega, hr⟩

theorem ne_pad_of_isAlpha {c : UInt8} (h : IsAlpha c) : c ≠ pad := by
  rintro rfl
  exact not_isAlpha_pad h

/-- One round stores what the next four alphabet characters stand for. A `'='` never ends
a round: the inner loop has skipped it before the test for it is made. -/
theorem decodeRound_cases (src : Bytes) :
    decodeRound src = (decodeDigits (alphabet src), none) ∨
    ∃ out rest, decodeRound src = (out, some rest) ∧ rest.length < src.length ∧
      decodeDigits (alphabet src) = out ++ decodeDigits (alphabet rest) := by
  unfold decodeRound
  dsimp only
  rcases skip_cases src 0 src.length (by simp) with ⟨ha, hs⟩ | ⟨a, r₁, hA, ha, hl₁, hs⟩
  · left
    simp [hs, ha, decodeDigits]
  have hp₁ : ¬ ((r₁.length : ℤ) + 1 = 0 ∨ a = pad) :=
    not_or.mpr ⟨by omega, ne_pad_of_isAlpha hA⟩
  simp only [hs, add_zero, deref, List.headD_cons, List.tail_cons, hp₁, if_false]
  rcases skip_cases r₁ 1 (r₁.length + 1) rfl with ⟨hb, hs⟩ | ⟨b, r₂, hB, hb, hl₂, hs⟩
  · left
    simp [hs, ha, hb, decodeDigits]
  have hp₂ : ¬ ((r₂.length : ℤ) + 1 + 1 ≤ 1 ∨ b = pad) :=
    not_or.mpr ⟨by omega, ne_pad_of_isAlpha hB⟩
  simp only [hs, List.headD_cons, List.tail_cons, hp₂, if_false]
  rcases skip_cases r₂ 2 (r₂.length + 1 + 1) (by omega) with
    ⟨hc, hs⟩ | ⟨c, r₃, hC, hc, hl₃, hs⟩
  · left
    simp [hs, ha, hb, hc, decodeDigits]
  have hp₃ : ¬ ((r₃.length : ℤ) + 1 + 2 ≤ 2 ∨ c = pad) :=
    not_or.mpr ⟨by omega, ne_pad_of_isAlpha hC⟩
  simp only [hs, List.headD_cons, List.tail_cons, hp₃, if_false]
  rcases skip_cases r₃ 3 (r₃.length + 1 + 2) (by omega) with
    ⟨hd, hs⟩ | ⟨d, r₄, hD, hd, hl₄, hs⟩
  · left
    simp [hs, ha, hb, hc, hd, decodeDigits]
  have hp₄ : ¬ ((r₄.length : ℤ) + 1 + 3 ≤ 3 ∨ d = pad) :=
    not_or.mpr ⟨by omega, ne_pad_of_isAlpha hD⟩
  right
  simp only [hs, List.headD_cons, List.tail_cons, hp₄, if_false]
  refine ⟨_, r₄, rfl, by omega, ?_⟩
  simp [ha, hb, hc, hd, decodeDigits]

theorem decodeRounds_eq (fuel : ℕ) (src : Bytes) (h : src.length ≤ fuel) :
    decodeRounds fuel src = decodeDigits (alphabet src) := by
  induction fuel generalizing src with
  | zero =>
    have : src = [] := List.length_eq_zero_iff.mp (by omega)
    subst this
    rfl
  | succ fuel ih =>
    cases src with
    | nil => rfl
    | cons c src =>
      simp only [decodeRounds]
      rcases decodeRound_cases (c :: src) with hr | ⟨out, rest, hr, hl, hd⟩
      · rw [hr]
      · rw [hr, hd]
        simp only
        rw [ih rest (by omega)]

/-- The loop runs to its end and stores the decoding of the alphabet characters. -/
theorem decode_eq (src : Bytes) : decode src = decodeDigits (alphabet src) :=
  decodeRounds_eq src.length src le_rfl

theorem length_decode (src : Bytes) : (decode src).length = (alphabet src).length * 3 / 4 := by
  rw [decode_eq, length_decodeDigits]

/-! ### The size estimate -/

theorem length_alphabet_le (src : Bytes) : (alphabet src).length ≤ src.length :=
  List.length_filter_le ..

theorem length_alphabet_eq_iff (src : Bytes) :
    (alphabet src).length = src.length ↔ ∀ c ∈ src, IsAlpha c := by
  simp [alphabet, List.length_filter_eq_length_iff]

/-- Two padding characters after whole quads of alphabet characters. -/
def OverPadded (src : Bytes) : Prop :=
  ∃ quads, src = quads ++ [pad, pad] ∧ quads.length % 4 = 0 ∧ ∀ c ∈ quads, IsAlpha c

theorem SizeT.dec_of_pos {n : ℕ} (h : 0 < n) (w : Bool) : SizeT.dec ⟨n, w⟩ = ⟨n - 1, w⟩ := by
  simp [SizeT.dec, h.ne']

theorem unpaddedSize_of_lt_two {n : ℕ} (h : n < 2) : unpaddedSize n = 0 := by
  interval_cases n <;> rfl

theorem unpaddedSize_add_two (q : ℕ) {r : ℕ} (hr : r < 4) :
    unpaddedSize (4 * q + r + 2) = 3 * q + r + 1 := by
  unfold unpaddedSize
  dsimp only
  interval_cases r <;> split_ifs <;> omega

theorem exists_last_two {src : Bytes} (h : 2 ≤ src.length) :
    ∃ body y x, src = body ++ [y, x] := by
  obtain ⟨init, x, rfl⟩ := List.eq_nil_or_concat' src |>.resolve_left (by rintro rfl; simp at h)
  obtain ⟨body, y, rfl⟩ := List.eq_nil_or_concat' init |>.resolve_left (by rintro rfl; simp at h)
  exact ⟨body, y, x, by simp⟩

theorem overPadded_append_iff (body : Bytes) (y x : UInt8) :
    OverPadded (body ++ [y, x]) ↔
      y = pad ∧ x = pad ∧ body.length % 4 = 0 ∧ (alphabet body).length = body.length := by
  rw [length_alphabet_eq_iff]
  constructor
  · intro hover
    obtain ⟨quads, he, hl, hq⟩ := hover
    obtain ⟨rfl, hp⟩ := List.append_inj' he rfl
    simp only [List.cons.injEq, and_true] at hp
    exact ⟨hp.1, hp.2, hl, hq⟩
  · intro hpads
    obtain ⟨rfl, rfl, hl, hq⟩ := hpads
    exact ⟨body, rfl, hl, hq⟩

/-- The estimate fails exactly on the over-padded inputs: on `"=="` the second decrement
wraps around, and on the longer ones the estimate is one too low. -/
theorem base64DecodedSize_sound_iff (src : Bytes) :
    ((base64DecodedSize src).wrapped = false ∧
      (decode src).length ≤ (base64DecodedSize src).val) ↔ ¬ OverPadded src := by
  rw [length_decode]
  by_cases h : src.length < 2
  · have hk := length_alphabet_le src
    have hs : base64DecodedSize src = ⟨0, false⟩ := by
      simp [base64DecodedSize, unpaddedSize_of_lt_two h]
    have hn : ¬ OverPadded src := by
      intro hover
      obtain ⟨quads, rfl, -⟩ := hover
      simp at h
    simp only [hs, hn, not_false_iff, iff_true, true_and]
    omega
  obtain ⟨body, y, x, rfl⟩ := exists_last_two (not_lt.mp h)
  obtain ⟨q, r, hr, hq⟩ : ∃ q r, r < 4 ∧ body.length = 4 * q + r :=
    ⟨body.length / 4, body.length % 4, Nat.mod_lt _ (by omega), by omega⟩
  have hu : unpaddedSize (body ++ [y, x]).length = 3 * q + r + 1 := by
    rw [List.length_append, hq]
    exact unpaddedSize_add_two q hr
  have hx : (body ++ [y, x])[(body ++ [y, x]).length - 1]? = some x := by simp
  have hy : (body ++ [y, x])[(body ++ [y, x]).length - 2]? = some y := by simp
  have hk : (alphabet body).length ≤ 4 * q + r := hq ▸ length_alphabet_le body
  have ha : (alphabet (body ++ [y, x])).length =
      (alphabet body).length + (if IsAlpha y then 1 else 0) + if IsAlpha x then 1 else 0 := by
    by_cases h₁ : IsAlpha y <;> by_cases h₂ : IsAlpha x <;> simp [alphabet, h₁, h₂]
  have hpos : 0 < 3 * q + r + 1 := by omega
  rw [overPadded_append_iff, ha, hq]
  simp only [base64DecodedSize, hu, hx, hy, gt_iff_lt, hpos, if_true, Option.some.injEq]
  by_cases hyp : y = pad <;> by_cases hxp : x = pad
  · subst hyp hxp
    simp only [if_true, not_isAlpha_pad, if_false, true_and, SizeT.dec_of_pos hpos]
    rcases Nat.eq_zero_or_pos (3 * q + r) with h0 | h0
    · have hz : (alphabet body).length = 0 := by omega
      have hq0 : q = 0 := by omega
      have hr0 : r = 0 := by omega
      simp [SizeT.dec, hq0, hr0, hz]
    · rw [SizeT.dec_of_pos (by omega)]
      simp only [true_and]
      interval_cases r <;> omega
  · subst hyp
    simp only [hxp, if_false, if_true, not_isAlpha_pad, SizeT.dec_of_pos hpos, true_and,
      false_and, and_false, not_false_iff, iff_true]
    interval_cases r <;> split_ifs <;> omega
  · subst hxp
    simp only [hyp, if_false, if_true, not_isAlpha_pad, SizeT.dec_of_pos hpos, true_and,
      false_and, not_false_iff, iff_true]
    interval_cases r <;> split_ifs <;> omega
  · simp only [hyp, hxp, if_false, true_and, false_and, not_false_iff, iff_true]
    interval_cases r <;> split_ifs <;> omega

/-- What `Base64Write` stores is the output of the loop, once the estimate has let it pass. -/
theorem base64Write_ok_iff (n : ℕ) (s : JSString) (offset : ℤ) (stored : Bytes) :
    base64Write n s offset = .ok stored ↔
      (sizeOfInt (int32Value offset) = 0 ∧ n = 0 ∧ stored = []) ∨
      (sizeOfInt (int32Value offset) < n ∧
        (base64DecodedSize (asciiValue s)).val ≤ n - sizeOfInt (int32Value offset) ∧
        stored = decode (asciiValue s)) := by
  unfold base64Write
  dsimp only
  generalize sizeOfInt (int32Value offset) = o
  split_ifs with h0 h1 h2
  · obtain ⟨rfl, rfl⟩ := h0
    simp [eq_comm]
  · simp only [false_iff]
    intro hor
    rcases hor with ⟨ho, hn, -⟩ | ⟨hlt, -⟩
    · exact h0 ⟨ho, hn⟩
    · omega
  · simp only [false_iff]
    intro hor
    rcases hor with ⟨ho, hn, -⟩ | ⟨-, hle, -⟩
    · exact h0 ⟨ho, hn⟩
    · omega
  · constructor
    · intro h
      exact Or.inr ⟨by omega, by omega, (Except.ok.inj h).symm⟩
    · intro hor
      rcases hor with ⟨ho, hn, -⟩ | ⟨-, -, rfl⟩
      · exact absurd ⟨ho, hn⟩ h0
      · rfl

/-- The writes of `Base64Write` stay inside the buffer, and the estimate is an upper bound
computed without wrap-around, exactly when the string is not over-padded. -/
theorem base64Write_sound_iff (s : JSString) :
    ((∀ n offset stored, base64Write n s offset = .ok stored →
        sizeOfInt (int32Value offset) + stored.length ≤ n) ∧
      (base64DecodedSize (asciiValue s)).wrapped = false ∧
      (decode (asciiValue s)).length ≤ (base64DecodedSize (asciiValue s)).val) ↔
    ¬ OverPadded (asciiValue s) := by
  rw [← base64DecodedSize_sound_iff]
  refine ⟨fun h => h.2, fun h => ⟨?_, h⟩⟩
  intro n offset stored hs
  rcases (base64Write_ok_iff n s offset stored).mp hs with ⟨ho, hn, rfl⟩ | ⟨ho, hsz, rfl⟩
  · simp [ho, hn]
  · have := h.2
    omega

/-- Three bytes go into a buffer of two. -/
theorem base64Write_overrun :
    ¬ ∀ n offset stored, base64Write n (js "AAAA==") offset = .ok stored →
      sizeOfInt (int32Value offset) + stored.length ≤ n := by
  intro h
  have := h 2 0 [0, 0, 0] (by decide)
  revert this
  decide

end NodeJS.Base64
