import NodeJS.Buffer.Utf8
import NodeJS.Buffer.Window

/-! The other direction of base64: the loop of `Buffer::Base64Slice`, its assertions, and that
`Base64Write` reads back what it makes. -/
namespace NodeJS.Base64

def base64Table : Bytes :=
  asciiValue (js "ABCDEFGHIJKLMNOPQRSTUVWXYZabcdefghijklmnopqrstuvwxyz0123456789+/")

/-- `out[j++] = x`; `j` is the number of characters stored. -/
def store (outLen : ℕ) (out : Bytes) (x : UInt8) : Option Bytes :=
  if out.length < outLen then some (out ++ [x]) else none

/-- `assert(c < 64); out[j++] = base64_table[(int)c];` -/
def storeDigit (outLen : ℕ) (out : Bytes) (c : UInt8) : Option Bytes := do
  guard (c < 64)
  let x ← base64Table[c.toNat]?
  store outLen out x

/-- One round of `while (i < end)`: `i` and the output after it. `none` is a failed assertion
or an access outside of `data` or `out`. -/
def sliceRound (data : Bytes) (stop outLen i : ℕ) (out : Bytes) : Option (ℕ × Bytes) := do
  let b0 ← data[i]?
  let i := i + 1
  let (b1, b1Oob) ← if i < stop then data[i]?.map (·, false) else some (0, true)
  let i := i + 1
  let (b2, b2Oob) ← if i < stop then data[i]?.map (·, false) else some (0, true)
  let i := i + 1
  let out ← storeDigit outLen out (b0 >>> 2)
  guard (out.length < outLen)
  let out ← storeDigit outLen out (((b0 &&& 0x03) <<< 4) ||| (b1 >>> 4))
  guard (out.length < outLen)
  let out ← if b1Oob then store outLen out pad
    else storeDigit outLen out (((b1 &&& 0x0F) <<< 2) ||| (b2 >>> 6))
  guard (out.length < outLen)
  let out ← if b2Oob then store outLen out pad else storeDigit outLen out (b2 &&& 0x3F)
  guard (out.length ≤ outLen)
  return (i, out)

/-- The rounds; each takes at least one byte. -/
def sliceRounds (data : Bytes) (stop outLen : ℕ) : ℕ → ℕ → Bytes → Option Bytes
  | 0, _, out => some out
  | fuel + 1, i, out =>
    if i < stop then do
      let (i, out) ← sliceRound data stop outLen i out
      sliceRounds data stop outLen fuel i out
    else some out

/-- `out_len` for `n` bytes. A buffer is too short for the sums to leave the range of an
`int`. -/
def outLen (n : ℕ) : ℕ := (n + 2 - (n + 2) % 3) / 3 * 4

/-- The characters written to `out` for `data_ + start` up to `data_ + end`. -/
def sliceOut (data : Bytes) (start stop : ℕ) : Option Bytes :=
  sliceRounds data stop (outLen (stop - start)) (stop - start) start []

/-- `String::New(out, length)`, which must not read further than has been written. -/
def stringNew (out : Bytes) (length : ℕ) : Option JSString :=
  if length ≤ out.length then some (utf8Slice (out.take length)) else none

inductive SliceError
  | badArgument
  | startAfterEnd
  | endAfterLength
  /-- The process aborts. -/
  | abort
  deriving DecidableEq

def sliceArgs (length : ℕ) (start stop : ℤ) : Except SliceError (ℕ × ℕ) :=
  if ¬ IsInt32 start ∨ ¬ IsInt32 stop then .error .badArgument
  else if start < 0 ∨ stop < 0 then .error .badArgument
  else if ¬ start ≤ stop then .error .startAfterEnd
  else if stop.toNat > length then .error .endAfterLength
  else .ok (start.toNat, stop.toNat)

def base64Slice (data : Bytes) (start stop : ℤ) : Except SliceError JSString := do
  let (start, stop) ← sliceArgs data.length start stop
  match sliceOut data start stop with
  | none => .error .abort
  | some out =>
    match stringNew out (outLen (stop - start)) with
    | none => .error .abort
    | some s => .ok s

def char (c : UInt8) : UInt8 := base64Table.getD c.toNat 0

/-- Three bytes at a time as four characters. -/
def encodeDigits : Bytes → Bytes
  | a :: b :: c :: rest =>
    char (a >>> 2) :: char (((a &&& 0x03) <<< 4) ||| (b >>> 4)) ::
      char (((b &&& 0x0F) <<< 2) ||| (c >>> 6)) :: char (c &&& 0x3F) :: encodeDigits rest
  | [a, b] =>
    [char (a >>> 2), char (((a &&& 0x03) <<< 4) ||| (b >>> 4)),
      char (((b &&& 0x0F) <<< 2) ||| ((0 : UInt8) >>> 6)), pad]
  | [a] => [char (a >>> 2), char (((a &&& 0x03) <<< 4) ||| ((0 : UInt8) >>> 4)), pad, pad]
  | [] => []

/-! ### Digits -/

theorem char_spec {c : UInt8} (h : c < 64) :
    base64Table[c.toNat]? = some (char c) ∧ IsAlpha (char c) ∧ digit (char c) = c ∧
      0 < char c ∧ char c < 0x80 := by
  have hall : ∀ n < 64, base64Table[n]? = some (base64Table.getD n 0) ∧
      IsAlpha (base64Table.getD n 0) ∧ digit (base64Table.getD n 0) = UInt8.ofNat n ∧
      0 < base64Table.getD n 0 ∧ base64Table.getD n 0 < 0x80 := by decide +kernel
  have hn : c.toNat < 64 := UInt8.lt_iff_toNat_lt.mp h
  simpa [char] using hall c.toNat hn

theorem lt_of_shiftRight {c : UInt8} (h : c >>> 6 = 0) : c < 64 := by
  rw [← UInt8.toNat_inj, UInt8.toNat_shiftRight] at h
  simp only [UInt8.reduceToNat, Nat.reduceMod, Nat.shiftRight_eq_div_pow] at h
  rw [UInt8.lt_iff_toNat_lt]
  simp only [UInt8.reduceToNat]
  omega

theorem digit0_lt (a : UInt8) : a >>> 2 < 64 := by
  apply lt_of_shiftRight
  apply UInt8.eq_of_toBitVec_eq
  ext i hi
  interval_cases i <;> simp

theorem digit1_lt (a b : UInt8) : ((a &&& 0x03) <<< 4) ||| (b >>> 4) < 64 := by
  apply lt_of_shiftRight
  apply UInt8.eq_of_toBitVec_eq
  ext i hi
  interval_cases i <;> simp

theorem digit2_lt (b c : UInt8) : ((b &&& 0x0F) <<< 2) ||| (c >>> 6) < 64 := by
  apply lt_of_shiftRight
  apply UInt8.eq_of_toBitVec_eq
  ext i hi
  interval_cases i <;> simp

theorem digit3_lt (c : UInt8) : c &&& 0x3F < 64 := by
  apply lt_of_shiftRight
  apply UInt8.eq_of_toBitVec_eq
  ext i hi
  interval_cases i <;> simp

theorem byte0_eq (a b : UInt8) :
    ((a >>> 2) <<< 2) ||| (((((a &&& 0x03) <<< 4) ||| (b >>> 4)) &&& 0x30) >>> 4) = a := by
  apply UInt8.eq_of_toBitVec_eq
  ext i hi
  interval_cases i <;> simp

theorem byte1_eq (a b c : UInt8) :
    (((((a &&& 0x03) <<< 4) ||| (b >>> 4)) &&& 0x0F) <<< 4) |||
      (((((b &&& 0x0F) <<< 2) ||| (c >>> 6)) &&& 0x3C) >>> 2) = b := by
  apply UInt8.eq_of_toBitVec_eq
  ext i hi
  interval_cases i <;> simp

theorem byte2_eq (b c : UInt8) :
    (((((b &&& 0x0F) <<< 2) ||| (c >>> 6)) &&& 0x03) <<< 6) ||| ((c &&& 0x3F) &&& 0x3F) = c := by
  apply UInt8.eq_of_toBitVec_eq
  ext i hi
  interval_cases i <;> simp

/-! ### What the loop writes -/

theorem length_encodeDigits (b : Bytes) : (encodeDigits b).length = outLen b.length := by
  unfold outLen
  fun_induction encodeDigits b with
  | case1 a b c rest ih =>
    simp only [List.length_cons, ih]
    omega
  | case2 => simp
  | case3 => simp
  | case4 => simp

section
variable {γ : Type} {outLen : ℕ} {out : Bytes} {c : UInt8}

/-- A store with room after it, and the assertion that follows. -/
theorem store_bind (x : UInt8) (h : out.length + 1 < outLen) (k : Bytes → Option γ) :
    ((store outLen out x).bind fun o => Option.bind (guard (o.length < outLen)) fun _ => k o) =
      k (out ++ [x]) := by
  have hlt : out.length < outLen := by omega
  simp [store, hlt, h]

theorem store_bind_last (x : UInt8) (h : out.length + 1 ≤ outLen) (k : Bytes → Option γ) :
    ((store outLen out x).bind fun o => Option.bind (guard (o.length ≤ outLen)) fun _ => k o) =
      k (out ++ [x]) := by
  have hlt : out.length < outLen := by omega
  simp [store, hlt, h]

theorem storeDigit_eq (hc : c < 64) : storeDigit outLen out c = store outLen out (char c) := by
  simp [storeDigit, hc, (char_spec hc).1]

end

section
variable {data : Bytes} {stop outLen i : ℕ} {out rest : Bytes} {a b c : UInt8}

/-- The bytes left, as the loop looks them up. -/
theorem getElem?_slice {k : ℕ} (x : UInt8) (h : ((data.take stop).drop i)[k]? = some x) :
    i + k < stop ∧ data[i + k]? = some x := by
  rw [List.getElem?_drop, List.getElem?_take] at h
  split_ifs at h with hlt
  exact ⟨hlt, h⟩

theorem stop_eq_of_slice (hstop : stop ≤ data.length) {s : Bytes}
    (h : (data.take stop).drop i = s) (hs : s ≠ []) : stop = i + s.length := by
  have hl := congrArg List.length h
  have hpos := List.length_pos_of_ne_nil hs
  simp only [List.length_drop, List.length_take] at hl
  omega

theorem sliceRound_three (h : (data.take stop).drop i = a :: b :: c :: rest)
    (hout : out.length + 4 ≤ outLen) :
    sliceRound data stop outLen i out = some (i + 3, out ++ encodeDigits [a, b, c]) := by
  have h0 := getElem?_slice (k := 0) a (by rw [h]; rfl)
  have h1 := getElem?_slice (k := 1) b (by rw [h]; rfl)
  have h2 := getElem?_slice (k := 2) c (by rw [h]; rfl)
  rw [Nat.add_zero] at h0
  simp only [sliceRound, h0, h1, h2, bind, Option.bind_some, if_true, Option.map_some,
    Bool.false_eq_true, if_false, storeDigit_eq (digit0_lt a), storeDigit_eq (digit1_lt a b),
    storeDigit_eq (digit2_lt b c), storeDigit_eq (digit3_lt c)]
  rw [store_bind _ (by omega), store_bind _ (by simp; omega), store_bind _ (by simp; omega),
    store_bind_last _ (by simp; omega)]
  simp [encodeDigits]

theorem sliceRound_two (hstop : stop ≤ data.length) (h : (data.take stop).drop i = [a, b])
    (hout : out.length + 4 ≤ outLen) :
    sliceRound data stop outLen i out = some (i + 3, out ++ encodeDigits [a, b]) := by
  have h0 := getElem?_slice (k := 0) a (by rw [h]; rfl)
  have h1 := getElem?_slice (k := 1) b (by rw [h]; rfl)
  rw [Nat.add_zero] at h0
  have h2 : ¬ i + 1 + 1 < stop := by
    have hs := stop_eq_of_slice hstop h (by simp)
    simp only [List.length_cons, List.length_nil] at hs
    omega
  simp only [sliceRound, h0, h1, h2, bind, Option.bind_some, if_true, Option.map_some,
    Bool.false_eq_true, if_false, storeDigit_eq (digit0_lt a), storeDigit_eq (digit1_lt a b),
    storeDigit_eq (digit2_lt b 0)]
  rw [store_bind _ (by omega), store_bind _ (by simp; omega), store_bind _ (by simp; omega),
    store_bind_last _ (by simp; omega)]
  simp [encodeDigits]

theorem sliceRound_one (hstop : stop ≤ data.length) (h : (data.take stop).drop i = [a])
    (hout : out.length + 4 ≤ outLen) :
    sliceRound data stop outLen i out = some (i + 3, out ++ encodeDigits [a]) := by
  have h0 := getElem?_slice (k := 0) a (by rw [h]; rfl)
  rw [Nat.add_zero] at h0
  have hs := stop_eq_of_slice hstop h (by simp)
  simp only [List.length_cons, List.length_nil] at hs
  have h1 : ¬ i + 1 < stop := by omega
  have h2 : ¬ i + 1 + 1 < stop := by omega
  simp only [sliceRound, h0, h1, h2, bind, Option.bind_some, if_true,
    if_false, storeDigit_eq (digit0_lt a), storeDigit_eq (digit1_lt a 0)]
  rw [store_bind _ (by omega), store_bind _ (by simp; omega), store_bind _ (by simp; omega),
    store_bind_last _ (by simp; omega)]
  simp [encodeDigits]

/-- All rounds from `i` on, given exactly the room they need. -/
theorem sliceRounds_eq (hstop : stop ≤ data.length) (fuel i : ℕ) (out s : Bytes)
    (hs : (data.take stop).drop i = s) (hfuel : s.length ≤ fuel)
    (hout : out.length + (encodeDigits s).length = outLen) :
    sliceRounds data stop outLen fuel i out = some (out ++ encodeDigits s) := by
  induction fuel generalizing i out s with
  | zero =>
    have hnil : s = [] := List.length_eq_zero_iff.mp (by omega)
    simp [sliceRounds, hnil, encodeDigits]
  | succ fuel ih =>
    have hrest : (data.take stop).drop (i + 3) = s.drop 3 := by rw [← hs, List.drop_drop]
    unfold sliceRounds
    match s, hs, hfuel, hout with
    | [], hs, _, _ =>
      have hi : ¬ i < stop := by
        have hl := congrArg List.length hs
        simp only [List.length_drop, List.length_take, List.length_nil] at hl
        omega
      simp [hi, encodeDigits]
    | [a], hs, hfuel, hout =>
      have hi : i < stop := by simp [stop_eq_of_slice hstop hs (by simp)]
      have hr : sliceRound data stop outLen i out = some (i + 3, out ++ encodeDigits [a]) :=
        sliceRound_one hstop hs (by simpa [encodeDigits] using hout.le)
      rw [if_pos hi, hr]
      simp only [bind, Option.bind_some]
      rw [ih (i + 3) _ [] hrest]
      · simp [encodeDigits]
      · simp
      · simpa [encodeDigits] using hout
    | [a, b], hs, hfuel, hout =>
      have hi : i < stop := by simp [stop_eq_of_slice hstop hs (by simp)]
      have hr : sliceRound data stop outLen i out = some (i + 3, out ++ encodeDigits [a, b]) :=
        sliceRound_two hstop hs (by simpa [encodeDigits] using hout.le)
      rw [if_pos hi, hr]
      simp only [bind, Option.bind_some]
      rw [ih (i + 3) _ [] hrest]
      · simp [encodeDigits]
      · simp
      · simpa [encodeDigits] using hout
    | a :: b :: c :: s, hs, hfuel, hout =>
      have hi : i < stop := by simp [stop_eq_of_slice hstop hs (by simp)]
      simp only [encodeDigits, List.length_cons] at hout hfuel
      have hr : sliceRound data stop outLen i out =
          some (i + 3, out ++ encodeDigits [a, b, c]) := sliceRound_three hs (by omega)
      rw [if_pos hi, hr]
      simp only [bind, Option.bind_some]
      rw [ih (i + 3) _ s hrest]
      · simp [encodeDigits]
      · omega
      · simp [encodeDigits]
        omega

end

/-- The loop writes as many characters as were allocated and no assertion fails. -/
theorem sliceOut_eq {data : Bytes} {start stop : ℕ} (hstop : stop ≤ data.length) :
    sliceOut data start stop = some (encodeDigits ((data.take stop).drop start)) := by
  have hl : ((data.take stop).drop start).length = stop - start := by
    rw [List.length_drop, List.length_take]
    omega
  have hout : ([] : Bytes).length + (encodeDigits ((data.take stop).drop start)).length =
      outLen (stop - start) := by
    rw [length_encodeDigits, hl, List.length_nil, Nat.zero_add]
  have h := sliceRounds_eq hstop (stop - start) start [] ((data.take stop).drop start) rfl hl.le
    hout
  rw [List.nil_append] at h
  exact h

theorem encodeDigits_text (b : Bytes) : ∀ c ∈ encodeDigits b, 0 < c ∧ c < 0x80 := by
  have hpad : 0 < pad ∧ pad < 0x80 := by decide
  have hchar : ∀ {c : UInt8}, c < 64 → 0 < char c ∧ char c < 0x80 := fun h => (char_spec h).2.2.2
  fun_induction encodeDigits b with
  | case1 a b c rest ih =>
    simp only [List.forall_mem_cons]
    exact ⟨hchar (digit0_lt a), hchar (digit1_lt a b), hchar (digit2_lt b c),
      hchar (digit3_lt c), ih⟩
  | case2 a b =>
    simp only [List.forall_mem_cons]
    exact ⟨hchar (digit0_lt a), hchar (digit1_lt a b), hchar (digit2_lt b 0), hpad, by simp⟩
  | case3 a =>
    simp only [List.forall_mem_cons]
    exact ⟨hchar (digit0_lt a), hchar (digit1_lt a 0), hpad, hpad, by simp⟩
  | case4 => simp

/-- The string made of the characters, and its characters again. -/
theorem asciiValue_utf8Slice {out : Bytes} (h : ∀ c ∈ out, 0 < c ∧ c < 0x80) :
    asciiValue (utf8Slice out) = out := by
  rw [utf8Slice_ascii fun c hc => (h c hc).2]
  unfold asciiValue
  rw [List.map_map]
  apply (List.map_congr_left ?_).trans (List.map_id out)
  intro c hc
  have hne : c ≠ 0 := (UInt8.ne_of_lt (h c hc).1).symm
  simp [asciiByte, lowByte, hne]

/-! ### Reading it back -/

theorem alphabet_char {c : UInt8} (h : c < 64) (s : Bytes) :
    alphabet (char c :: s) = char c :: alphabet s :=
  alphabet_cons_pos (char_spec h).2.1 s

theorem decodeDigits_encodeDigits (b : Bytes) : decodeDigits (alphabet (encodeDigits b)) = b := by
  have hdigit : ∀ {c : UInt8}, c < 64 → digit (char c) = c := fun h => (char_spec h).2.2.1
  fun_induction encodeDigits b with
  | case1 a b c rest ih =>
    rw [alphabet_char (digit0_lt a), alphabet_char (digit1_lt a b), alphabet_char (digit2_lt b c),
      alphabet_char (digit3_lt c)]
    simp only [decodeDigits, hdigit (digit0_lt a), hdigit (digit1_lt a b), hdigit (digit2_lt b c),
      hdigit (digit3_lt c), byte0_eq, byte1_eq, byte2_eq, ih]
  | case2 a b =>
    rw [alphabet_char (digit0_lt a), alphabet_char (digit1_lt a b), alphabet_char (digit2_lt b 0),
      alphabet_cons_neg not_isAlpha_pad, alphabet_nil]
    simp only [decodeDigits, hdigit (digit0_lt a), hdigit (digit1_lt a b), hdigit (digit2_lt b 0),
      byte0_eq, byte1_eq]
  | case3 a =>
    rw [alphabet_char (digit0_lt a), alphabet_char (digit1_lt a 0),
      alphabet_cons_neg not_isAlpha_pad, alphabet_cons_neg not_isAlpha_pad, alphabet_nil]
    simp only [decodeDigits, hdigit (digit0_lt a), hdigit (digit1_lt a 0), byte0_eq]
  | case4 => rfl

/-- How many of the last two characters are padding depends on the length of the input. -/
theorem encodeDigits_last {b : Bytes} (hb : b ≠ []) :
    ∃ body y x, encodeDigits b = body ++ [y, x] ∧ (x = pad ↔ b.length % 3 ≠ 0) ∧
      (y = pad ↔ b.length % 3 = 1) := by
  have hne : ∀ {c : UInt8}, c < 64 → ¬ char c = pad := fun h => ne_pad_of_isAlpha (char_spec h).2.1
  fun_induction encodeDigits b with
  | case1 a b c rest ih =>
    by_cases hrest : rest = []
    · subst hrest
      refine ⟨[_, _], _, _, rfl, ?_, ?_⟩
      · simp [hne (digit3_lt c)]
      · simp [hne (digit2_lt b c)]
    · obtain ⟨body, y, x, he, hx, hy⟩ := ih hrest
      refine ⟨_ :: _ :: _ :: _ :: body, y, x, by rw [he]; rfl, ?_, ?_⟩
      · rw [hx]
        simp only [List.length_cons]
        omega
      · rw [hy]
        simp only [List.length_cons]
        omega
  | case2 a b =>
    refine ⟨[_, _], _, _, rfl, ?_, ?_⟩
    · simp
    · simp only [hne (digit2_lt b 0), List.length_cons, List.length_nil, false_iff]
      decide
  | case3 a =>
    refine ⟨[_, _], _, _, rfl, ?_, ?_⟩
    · simp
    · simp
  | case4 => exact absurd rfl hb

theorem base64DecodedSize_encodeDigits (b : Bytes) :
    base64DecodedSize (encodeDigits b) = ⟨b.length, false⟩ := by
  by_cases hb : b = []
  · subst hb
    rfl
  obtain ⟨body, y, x, he, hx, hy⟩ := encodeDigits_last hb
  have hpos := List.length_pos_of_ne_nil hb
  have hlen : (body ++ [y, x]).length = outLen b.length := by rw [← he, length_encodeDigits]
  have hsize : unpaddedSize (body ++ [y, x]).length = (b.length + 2) / 3 * 3 := by
    rw [hlen]
    unfold outLen unpaddedSize
    dsimp only
    split_ifs <;> omega
  have hlast : (body ++ [y, x])[(body ++ [y, x]).length - 1]? = some x := by simp
  have hprev : (body ++ [y, x])[(body ++ [y, x]).length - 2]? = some y := by simp
  have hsz : 0 < (b.length + 2) / 3 * 3 := by omega
  rw [he]
  simp only [base64DecodedSize, hsize, gt_iff_lt, hsz, if_true, hlast, hprev, Option.some.injEq,
    hx, hy]
  split_ifs with h1 h2 h2
  · rw [SizeT.dec_of_pos hsz, SizeT.dec_of_pos (by omega)]
    simp only [SizeT.mk.injEq, and_true]
    omega
  · omega
  · rw [SizeT.dec_of_pos hsz]
    simp only [SizeT.mk.injEq, and_true]
    omega
  · simp only [SizeT.mk.injEq, and_true]
    omega

theorem base64DecodedSize_pos {src : Bytes} (h : 4 ≤ src.length) :
    0 < (base64DecodedSize src).val := by
  obtain ⟨m, hm⟩ : ∃ m, unpaddedSize src.length = m + 3 := by
    refine ⟨unpaddedSize src.length - 3, ?_⟩
    unfold unpaddedSize
    dsimp only
    split_ifs <;> omega
  unfold base64DecodedSize
  simp only [hm]
  split_ifs <;> simp [SizeT.dec]

/-- ASCII characters that a base64 text may be broken up with. -/
def Skippable (c : UInt16) : Prop := c < 0x80 ∧ ¬ IsAlpha (asciiByte c) ∧ c ≠ 0x3d

instance (c : UInt16) : Decidable (Skippable c) := inferInstanceAs (Decidable (_ ∧ _))

theorem alphabet_skippable {s t : JSString} (h : t.filter (fun c => ¬ Skippable c) = s) :
    alphabet (asciiValue t) = alphabet (asciiValue s) := by
  subst h
  unfold asciiValue alphabet
  rw [List.filter_map, List.filter_map, List.filter_filter]
  congr 1
  apply List.filter_congr
  intro c _
  by_cases hc : IsAlpha (asciiByte c)
  · simp [Skippable, hc]
  · simp [hc]

theorem sizeOfInt_int32Value {o : ℕ} (h : o < 2 ^ 31) : sizeOfInt (int32Value o) = o := by
  unfold sizeOfInt int32Value
  omega

/-- The arguments pass the checks, and the string holds all of `out`. -/
theorem base64Slice_eq {data : Bytes} {start stop : ℕ} (hle : start ≤ stop)
    (hstop : stop ≤ data.length) (hmax : data.length ≤ kMaxLength) :
    base64Slice data start stop = .ok (utf8Slice (encodeDigits ((data.take stop).drop start))) := by
  have hout : sliceOut data start stop =
      some (encodeDigits ((data.take stop).drop start)) := sliceOut_eq hstop
  have hlen : (encodeDigits ((data.take stop).drop start)).length = outLen (stop - start) := by
    rw [length_encodeDigits, List.length_drop, List.length_take, Nat.min_eq_left hstop]
  have hargs : sliceArgs data.length start stop = .ok (start, stop) := by
    unfold sliceArgs IsInt32
    unfold kMaxLength at hmax
    rw [if_neg (by omega), if_neg (by omega), if_neg (by omega), if_neg (by omega)]
    rfl
  have hnew : stringNew (encodeDigits ((data.take stop).drop start)) (outLen (stop - start)) =
      some (utf8Slice (encodeDigits ((data.take stop).drop start))) := by
    rw [stringNew, if_pos hlen.ge, List.take_of_length_le hlen.le]
  unfold base64Slice
  rw [hargs]
  simp only [bind, Except.bind, hout, hnew]

theorem length_utf8Slice_encodeDigits (b : Bytes) :
    (utf8Slice (encodeDigits b)).length = outLen b.length := by
  have hascii := asciiValue_utf8Slice (encodeDigits_text b)
  rw [← length_encodeDigits, ← congrArg List.length hascii, asciiValue, List.length_map]

/-- A text with the alphabet characters of the base64 of `b` is written as `b`. -/
theorem base64Write_encodeDigits {b : Bytes} {t : JSString} {length offset : ℕ}
    (ht : alphabet (asciiValue t) = alphabet (encodeDigits b)) (hlength : length ≤ kMaxLength)
    (hoffset : offset < length ∨ offset = 0)
    (hroom : (base64DecodedSize (asciiValue t)).val ≤ length - offset)
    (hempty : length = 0 → b = []) : base64Write length t offset = .ok b := by
  have ho : sizeOfInt (int32Value offset) = offset :=
    sizeOfInt_int32Value (by unfold kMaxLength at hlength; omega)
  rw [base64Write_ok_iff, ho, decode_eq, ht, decodeDigits_encodeDigits]
  rcases Nat.eq_zero_or_pos length with h0 | hpos
  · exact Or.inl ⟨by omega, h0, hempty h0⟩
  · exact Or.inr ⟨by omega, hroom, rfl⟩

/-- A text without room that is broken up base64 has nothing in it. -/
theorem eq_nil_of_skippable {b : Bytes} {t : JSString}
    (ht : t.filter (fun c => ¬ Skippable c) = utf8Slice (encodeDigits b))
    (hsize : (base64DecodedSize (asciiValue t)).val = 0) : b = [] := by
  by_contra hne
  have hlt : t.length < 4 := by
    by_contra hge
    have hlength : 4 ≤ (asciiValue t).length := by
      rw [asciiValue, List.length_map]
      omega
    have hpos := base64DecodedSize_pos hlength
    omega
  have hfilter := congrArg List.length ht
  have htl := List.length_filter_le (fun c => decide (¬ Skippable c)) t
  have hpos := List.length_pos_of_ne_nil hne
  rw [length_utf8Slice_encodeDigits] at hfilter
  unfold outLen at hfilter
  omega

/-- Base64 of the bytes `b` from `start` to `stop`: all characters are written, and whatever is
put between them, writing them to a buffer that has room stores `b`. -/
theorem base64Slice_base64Write (data : Bytes) (start stop : ℕ) (hle : start ≤ stop)
    (hstop : stop ≤ data.length) (hmax : data.length ≤ kMaxLength) :
    ∃ out s, sliceOut data start stop = some out ∧ out.length = outLen (stop - start) ∧
      base64Slice data start stop = .ok s ∧ s.length = outLen (stop - start) ∧
      base64DecodedSize (asciiValue s) = ⟨stop - start, false⟩ ∧
      ∀ length offset : ℕ, length ≤ kMaxLength → (offset < length ∨ offset = 0) →
        (stop - start ≤ length - offset →
          base64Write length s offset = .ok ((data.take stop).drop start)) ∧
        ∀ t : JSString, t.filter (fun c => ¬ Skippable c) = s →
          (base64DecodedSize (asciiValue t)).val ≤ length - offset →
          base64Write length t offset = .ok ((data.take stop).drop start) := by
  obtain ⟨b, hb⟩ : ∃ b, b = (data.take stop).drop start := ⟨_, rfl⟩
  have hblen : b.length = stop - start := by
    rw [hb, List.length_drop, List.length_take]
    omega
  have hout : sliceOut data start stop = some (encodeDigits b) := hb ▸ sliceOut_eq hstop
  have hslice : base64Slice data start stop = .ok (utf8Slice (encodeDigits b)) :=
    hb ▸ base64Slice_eq hle hstop hmax
  have hascii := asciiValue_utf8Slice (encodeDigits_text b)
  refine ⟨encodeDigits b, utf8Slice (encodeDigits b), hout, ?_, hslice, ?_, ?_, ?_⟩
  · rw [length_encodeDigits, hblen]
  · rw [length_utf8Slice_encodeDigits, hblen]
  · rw [hascii, base64DecodedSize_encodeDigits, hblen]
  · intro length offset hlength hoffset
    rw [← hb]
    constructor
    · intro hroom
      apply base64Write_encodeDigits (by rw [hascii]) hlength hoffset
      · rw [hascii, base64DecodedSize_encodeDigits, hblen]
        exact hroom
      · intro h0
        exact List.length_eq_zero_iff.mp (by omega)
    · intro t ht hroom
      have halphabet : alphabet (asciiValue t) = alphabet (encodeDigits b) := by
        rw [alphabet_skippable ht, hascii]
      apply base64Write_encodeDigits halphabet hlength hoffset hroom
      intro h0
      exact eq_nil_of_skippable ht (by omega)

/-- Two bytes, written back with a line break in between. -/
theorem base64Slice_base64Write_two :
    base64Slice [0x4d, 0x61] (0 : ℕ) (2 : ℕ) = .ok (js "TWE=") ∧
      base64Write 3 (js "TW\r\nE=") (0 : ℕ) = .ok [0x4d, 0x61] := by
  obtain ⟨_, s, -, -, hs, -, -, h⟩ :=
    base64Slice_base64Write [0x4d, 0x61] 0 2 (by decide) (by decide) (by decide)
  have heval : base64Slice [0x4d, 0x61] (0 : ℕ) (2 : ℕ) = .ok (js "TWE=") := by decide +kernel
  obtain rfl : s = js "TWE=" := Except.ok.inj (hs.symm.trans heval)
  exact ⟨heval, (h 3 0 (by decide) (by decide)).2 (js "TW\r\nE=") (by decide +kernel)
    (by decide +kernel)⟩

end NodeJS.Base64
