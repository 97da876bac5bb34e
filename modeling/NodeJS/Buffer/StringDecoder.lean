import NodeJS.Buffer.Copy
import NodeJS.Buffer.Utf8

/-! The utf8 `StringDecoder`: how it cuts a stream of chunks into the byte ranges it turns into
strings. -/
namespace NodeJS

open Lib.Utf8

structure StringDecoder where
  charBuffer : Bytes
  charReceived : ℕ
  charLength : ℕ
  deriving DecidableEq

namespace StringDecoder

/-- `new StringDecoder('utf8')`, whose `charBuffer` holds whatever was in memory. -/
def new (memory : Fin 4 → UInt8) : StringDecoder := ⟨List.ofFn memory, 0, 0⟩

/-- The tests on `c`, the byte `i` places before the end: the `charLength` they set. -/
def lead (i : ℕ) (c : UInt8) : Option ℕ :=
  if i = 1 ∧ c >>> 5 = 0x06 then some 2
  else if i ≤ 2 ∧ c >>> 4 = 0x0E then some 3
  else if i ≤ 3 ∧ c >>> 3 = 0x1E then some 4
  else none

/-- `for (; i > 0; i--)`: `charLength` and `i` when the loop is left. -/
def scan (buffer : Bytes) : ℕ → ℕ × ℕ
  | 0 => (0, 0)
  | i + 1 =>
    match lead (i + 1) (buffer.getD (buffer.length - (i + 1)) 0) with
    | some charLength => (charLength, i + 1)
    | none => scan buffer i

section
variable {β : Type} (toString : Bytes → List β)

/-- The second half of `write`, which no pending character has a part in. -/
def writeRest (d : StringDecoder) (charStr : List β) (buffer : Bytes) :
    Except BufferCopyError (StringDecoder × List β) := do
  let (charLength, i) := scan buffer (if buffer.length ≥ 3 then 3 else buffer.length)
  if charLength = 0 then return (d, charStr ++ toString buffer)
  let charBuffer ← bufferCopy buffer d.charBuffer 0 (buffer.length - i) buffer.length
  let d : StringDecoder := ⟨charBuffer, i, charLength⟩
  if buffer.length - i > 0 then
    return (d, charStr ++ toString (buffer.take (buffer.length - i)))
  return (d, charStr)

/-- `StringDecoder.prototype.write`. With `utf8Slice` for `toString` the result is the string
returned; with the singleton it is the list of byte ranges made into strings. -/
def write (d : StringDecoder) (buffer : Bytes) : Except BufferCopyError (StringDecoder × List β) :=
  if d.charLength ≠ 0 then do
    let i := if buffer.length ≥ d.charLength - d.charReceived
      then d.charLength - d.charReceived else buffer.length
    let charBuffer ← bufferCopy buffer d.charBuffer d.charReceived 0 i
    let d : StringDecoder := ⟨charBuffer, d.charReceived + i, d.charLength⟩
    if d.charReceived < d.charLength then return (d, [])
    let charStr := toString (d.charBuffer.take d.charLength)
    let d : StringDecoder := ⟨d.charBuffer, 0, 0⟩
    if i = buffer.length then return (d, charStr)
    writeRest toString d charStr (buffer.drop i)
  else writeRest toString d [] buffer

/-- One `write` after the other: the decoder at the end and all results, joined. -/
def writeAll (d : StringDecoder) : List Bytes → Except BufferCopyError (StringDecoder × List β)
  | [] => .ok (d, [])
  | chunk :: chunks => do
    let (d, out) ← write toString d chunk
    let (d, outs) ← writeAll d chunks
    return (d, out ++ outs)

end

/-- The bytes received of a character that is not complete. -/
def held (d : StringDecoder) : Bytes := d.charBuffer.take d.charReceived

/-- Nothing is pending, or a lead byte that announces more than has been received. -/
structure Inv (d : StringDecoder) : Prop where
  room : d.charBuffer.length = 4
  pending : d.charLength = 0 ∧ d.charReceived = 0 ∨
    ∃ b p, d.held = b :: p ∧ d.charReceived = p.length + 1 ∧
      announced b = some d.charLength ∧ p.length + 1 < d.charLength

theorem new_inv (memory : Fin 4 → UInt8) : (new memory).Inv where
  room := List.length_ofFn
  pending := Or.inl ⟨rfl, rfl⟩

/-- The shifts look for the lead bytes that announce more than `i` bytes. -/
theorem lead_some_iff {i : ℕ} (h1 : 1 ≤ i) (h3 : i ≤ 3) (c : UInt8) (n : ℕ) :
    lead i c = some n ↔ announced c = some n ∧ i < n := by
  have h5 : c >>> 5 = 0x06 ↔ c.toNat / 32 = 6 := by
    rw [← UInt8.toNat_inj, UInt8.toNat_shiftRight]
    simp [Nat.shiftRight_eq_div_pow]
  have h4 : c >>> 4 = 0x0E ↔ c.toNat / 16 = 14 := by
    rw [← UInt8.toNat_inj, UInt8.toNat_shiftRight]
    simp [Nat.shiftRight_eq_div_pow]
  have h3 : c >>> 3 = 0x1E ↔ c.toNat / 8 = 30 := by
    rw [← UInt8.toNat_inj, UInt8.toNat_shiftRight]
    simp [Nat.shiftRight_eq_div_pow]
  unfold lead announced
  simp only [h5, h4, h3, UInt8.lt_iff_toNat_lt, UInt8.reduceToNat]
  split_ifs <;> simp only [Option.some.injEq, false_and, false_iff] <;> omega

/-- The scan stops at the first of the bytes it looks at that announces more than is there. -/
theorem scan_cases (buffer : Bytes) (k : ℕ) (hk : k ≤ 3) (hl : k ≤ buffer.length) :
    (scan buffer k = (0, 0) ∧
      ∀ s b p n, buffer = s ++ b :: p → p.length < k → announced b = some n → n ≤ p.length + 1) ∨
    ∃ s b p n, buffer = s ++ b :: p ∧ announced b = some n ∧ p.length + 1 < n ∧
      p.length < k ∧ scan buffer k = (n, p.length + 1) := by
  induction k with
  | zero =>
    left
    constructor
    · rfl
    · intro s b p n _ hp
      omega
  | succ k ih =>
    obtain ⟨s, c, p, he, hp, hc⟩ : ∃ s c p, buffer = s ++ c :: p ∧ p.length = k ∧
        buffer.getD (buffer.length - (k + 1)) 0 = c := by
      have hlt : buffer.length - (k + 1) < buffer.length := by omega
      refine ⟨buffer.take (buffer.length - (k + 1)), _,
        buffer.drop (buffer.length - (k + 1) + 1), ?_, ?_, rfl⟩
      · rw [List.getD_eq_getElem?_getD, List.getElem?_eq_getElem hlt, Option.getD_some,
          ← List.drop_eq_getElem_cons hlt, List.take_append_drop]
      · rw [List.length_drop]
        omega
    unfold scan
    rw [hc]
    cases hlead : lead (k + 1) c with
    | some n =>
      obtain ⟨hn, hlt⟩ := (lead_some_iff (by omega) hk c n).mp hlead
      right
      exact ⟨s, c, p, n, he, hn, by omega, by omega, by simp [hp]⟩
    | none =>
      rcases ih (by omega) (by omega) with ⟨hs, hno⟩ | ⟨s', b, p', n, he', hn, hlt, hp', hs⟩
      · left
        refine ⟨hs, ?_⟩
        intro s' b p' n he' hp' hn
        rcases Nat.lt_or_ge p'.length k with hlt | hge
        · exact hno s' b p' n he' hlt hn
        · have hinj := List.append_inj' (he.symm.trans he') (by simp only [List.length_cons]; omega)
          obtain ⟨rfl, rfl⟩ := List.cons.inj hinj.2
          by_contra hgt
          have hsome := (lead_some_iff (by omega) hk c n).mpr ⟨hn, by omega⟩
          rw [hlead] at hsome
          exact absurd hsome (by simp)
      · right
        exact ⟨s', b, p', n, he', hn, hlt, by omega, hs⟩

/-- A copy that fits is made. -/
theorem bufferCopy_fit {source target : Bytes} {targetStart start stop : ℕ}
    (hz : stop = 0 → source = []) (hle : start ≤ stop) (hs : stop ≤ source.length)
    (ht : targetStart + (stop - start) ≤ target.length) :
    bufferCopy source target targetStart start stop =
      .ok (target.take targetStart ++ (source.drop start).take (stop - start) ++
        target.drop (targetStart + (stop - start))) := by
  have hstop : (if stop = 0 then source.length else stop) = stop := by
    split_ifs with h0
    · rw [hz h0, h0]
      rfl
    · rfl
  unfold bufferCopy
  dsimp only
  rw [hstop, if_neg (by omega)]
  split_ifs with h1 h2 h3 h4 h5
  · simp [h1]
  · omega
  · omega
  · omega
  · omega
  · omega
  · rfl

/-- In a valid stream what is held is a part of a character. -/
theorem Inv.partial_held {d : StringDecoder} (h : d.Inv) {rest : Bytes}
    (hw : Whole (d.held ++ rest)) : Partial d.held := by
  rcases h.pending with ⟨-, h0⟩ | ⟨b, p, hh, -, hn, hlt⟩
  · have hnil : d.held = [] := by simp [held, h0]
    rw [hnil]
    exact ⟨[0], by simp, by decide, by simp⟩
  · rw [hh] at hw ⊢
    exact hw.partial_of_announced hn hlt

/-- Given a buffer and nothing pending: the ranges that are emitted and what is held back.
The last part says that on a valid stream the cut is made between characters. -/
theorem writeRest_spec (d : StringDecoder) (buffer : Bytes) (hroom : d.charBuffer.length = 4)
    (hidle : d.charLength = 0 ∧ d.charReceived = 0) :
    ∃ (d' : StringDecoder) (ranges : List Bytes),
      (∀ (β : Type) (toString : Bytes → List β) (charStr : List β),
        writeRest toString d charStr buffer = .ok (d', charStr ++ ranges.flatMap toString)) ∧
      d'.Inv ∧ ranges.flatten ++ d'.held = buffer ∧
      ∀ rest, Whole (buffer ++ rest) → ∀ r ∈ ranges, Whole r := by
  have hk : (if buffer.length ≥ 3 then 3 else buffer.length) ≤ 3 := by split_ifs <;> omega
  have hl : (if buffer.length ≥ 3 then 3 else buffer.length) ≤ buffer.length := by
    split_ifs <;> omega
  have hmax : (if buffer.length ≥ 3 then 3 else buffer.length) = min 3 buffer.length := by
    split_ifs <;> omega
  unfold writeRest
  rcases scan_cases buffer _ hk hl with ⟨hs, hno⟩ | ⟨s, b, p, n, rfl, hn, hlt, hp, hs⟩
  · refine ⟨d, [buffer], ?_, ⟨hroom, Or.inl hidle⟩, ?_, ?_⟩
    · intro β toString charStr
      rw [hs]
      simp [pure, Except.pure]
    · simp [held, hidle.2]
    · intro rest hw r hr
      rw [List.mem_singleton.mp hr]
      obtain ⟨w, q, rfl, hwhole, hpart⟩ := hw.split
      cases q with
      | nil => simpa using hwhole
      | cons b q =>
        exfalso
        obtain ⟨n, hn, hlt⟩ := hpart.announced
        have hn4 := (announced_le hn).2
        have hle := hno w b q n rfl (by rw [hmax]; simp; omega) hn
        omega
  · have hp3 : p.length + 1 ≤ 3 := by omega
    have hi : (s ++ b :: p).length - (p.length + 1) = s.length := by simp
    have hcopy : bufferCopy (s ++ b :: p) d.charBuffer 0 s.length (s ++ b :: p).length =
        .ok (b :: p ++ d.charBuffer.drop (p.length + 1)) := by
      rw [bufferCopy_fit (by simp) (by simp) (le_refl _) (by simp [hroom]; omega)]
      simp
    have hn0 : n ≠ 0 := by omega
    have hheld : held ⟨b :: p ++ d.charBuffer.drop (p.length + 1), p.length + 1, n⟩ = b :: p := by
      unfold held
      exact List.take_left' (by simp)
    have hinv : Inv ⟨b :: p ++ d.charBuffer.drop (p.length + 1), p.length + 1, n⟩ := by
      constructor
      · simp [hroom]
        omega
      · exact Or.inr ⟨b, p, hheld, rfl, hn, hlt⟩
    by_cases hs0 : s.length > 0
    · refine ⟨⟨b :: p ++ d.charBuffer.drop (p.length + 1), p.length + 1, n⟩, [s], ?_, hinv, ?_, ?_⟩
      · intro β toString charStr
        rw [hs]
        simp only [hi, hn0, if_false, hcopy, hs0, if_true, List.take_left, List.flatMap_cons,
          List.flatMap_nil, List.append_nil]
        rfl
      · rw [hheld]
        simp
      · intro rest hw r hr
        rw [List.mem_singleton.mp hr]
        rw [List.append_assoc] at hw
        exact hw.at_lead hn
    · refine ⟨⟨b :: p ++ d.charBuffer.drop (p.length + 1), p.length + 1, n⟩, [], ?_, hinv, ?_, ?_⟩
      · intro β toString charStr
        rw [hs]
        simp only [hi, hn0, if_false, hcopy, hs0, List.flatMap_nil, List.append_nil]
        rfl
      · have hnil : s = [] := List.length_eq_zero_iff.mp (by omega)
        rw [hheld, hnil]
        rfl
      · intro rest _ r hr
        exact absurd hr (by simp)

section
variable {d : StringDecoder} (hroom : d.charBuffer.length = 4) {b : UInt8} {p : Bytes}
  (hh : d.held = b :: p) (hrec : d.charReceived = p.length + 1)
  (hn : announced b = some d.charLength) (hlt : p.length + 1 < d.charLength)
include hroom hh hrec hn hlt

omit hh in
/-- Bytes of the pending character are put behind those that are there. -/
theorem bufferCopy_pending {x y : Bytes} (hx : d.charReceived + x.length ≤ d.charLength)
    (hz : x = [] → y = []) :
    bufferCopy (x ++ y) d.charBuffer d.charReceived 0 x.length =
      .ok (d.held ++ x ++ d.charBuffer.drop (d.charReceived + x.length)) := by
  have hn4 := (announced_le hn).2
  rw [bufferCopy_fit ?_ (Nat.zero_le _) (by simp) (by omega)]
  · simp [held]
  · intro h0
    have hnil := List.length_eq_zero_iff.mp h0
    rw [hnil, hz hnil]
    rfl

/-- The character stays incomplete. -/
theorem write_pending {buffer : Bytes} (hb : d.charReceived + buffer.length < d.charLength) :
    ∃ d' : StringDecoder, (∀ (β : Type) (toString : Bytes → List β),
        write toString d buffer = .ok (d', [])) ∧ d'.Inv ∧ d'.held = d.held ++ buffer := by
  have hcopy := bufferCopy_pending hroom hrec hn hlt (x := buffer) (y := []) hb.le (by simp)
  rw [List.append_nil] at hcopy
  have hlen : d.held.length = d.charReceived := by rw [hh, hrec, List.length_cons]
  have hheld : held ⟨d.held ++ buffer ++ d.charBuffer.drop (d.charReceived + buffer.length),
      d.charReceived + buffer.length, d.charLength⟩ = d.held ++ buffer :=
    List.take_left' (by rw [List.length_append, hlen])
  refine ⟨⟨d.held ++ buffer ++ d.charBuffer.drop (d.charReceived + buffer.length),
    d.charReceived + buffer.length, d.charLength⟩, ?_, ?_, hheld⟩
  · intro β toString
    have hn0 : d.charLength ≠ 0 := by omega
    have hi : ¬ buffer.length ≥ d.charLength - d.charReceived := by omega
    simp only [write, hn0, ne_eq, not_false_iff, if_true, hi, if_false, hcopy, bind, Except.bind,
      hb]
    rfl
  · have hn4 := (announced_le hn).2
    constructor
    · simp only [List.length_append, List.length_drop, hlen, hroom]
      omega
    · right
      refine ⟨b, p ++ buffer, by rw [hheld, hh]; rfl, ?_, hn, ?_⟩
      · rw [List.length_append]
        dsimp only
        omega
      · rw [List.length_append]
        dsimp only
        omega

/-- The chunk starts with the bytes that are missing. -/
theorem write_complete {x y : Bytes} (hx : d.charReceived + x.length = d.charLength)
    {β : Type} (toString : Bytes → List β) :
    write toString d (x ++ y) =
      let d' := ⟨d.held ++ x ++ d.charBuffer.drop (d.charReceived + x.length), 0, 0⟩
      if y = [] then .ok (d', toString (d.held ++ x))
      else writeRest toString d' (toString (d.held ++ x)) y := by
  have hcopy := bufferCopy_pending hroom hrec hn hlt (x := x) (y := y) hx.le (by
    rintro rfl
    rw [List.length_nil] at hx
    omega)
  have hn0 : d.charLength ≠ 0 := by omega
  have hi : d.charLength - d.charReceived = x.length := by omega
  have hge : (x ++ y).length ≥ x.length := by
    rw [List.length_append]
    omega
  have hdone : ¬ d.charReceived + x.length < d.charLength := by omega
  have hlen : (d.held ++ x).length = d.charLength := by
    rw [List.length_append, hh, List.length_cons]
    omega
  have hall : (x.length = (x ++ y).length) ↔ y = [] := by
    rw [List.length_append, ← List.length_eq_zero_iff]
    omega
  simp only [write, hn0, ne_eq, not_false_iff, if_true, hge, hi, hcopy, bind, Except.bind, hdone,
    if_false, List.take_left' hlen, hall, List.drop_left]
  rfl

end

/-- One `write`: what was held and the chunk are what is emitted and what is held now. -/
theorem write_spec (d : StringDecoder) (hd : d.Inv) (buffer : Bytes) :
    ∃ (d' : StringDecoder) (ranges : List Bytes), (∀ (β : Type) (toString : Bytes → List β),
        write toString d buffer = .ok (d', ranges.flatMap toString)) ∧
      d'.Inv ∧ ranges.flatten ++ d'.held = d.held ++ buffer ∧
      ∀ rest, Whole (d.held ++ buffer ++ rest) → ∀ r ∈ ranges, Whole r := by
  have hroom := hd.room
  rcases hd.pending with hidle | ⟨b, p, hh, hrec, hn, hlt⟩
  · obtain ⟨d', ranges, hw, hinv, hcat, hwhole⟩ := writeRest_spec d buffer hroom hidle
    have hheld : d.held = [] := by simp [held, hidle.2]
    refine ⟨d', ranges, ?_, hinv, ?_, ?_⟩
    · intro β toString
      unfold write
      rw [if_neg (by simp [hidle.1]), hw, List.nil_append]
    · rw [hcat, hheld, List.nil_append]
    · rw [hheld]
      exact hwhole
  by_cases hlen : d.charReceived + buffer.length < d.charLength
  · obtain ⟨d', hw, hinv, hheld⟩ := write_pending hroom hh hrec hn hlt hlen
    exact ⟨d', [], hw, hinv, hheld, by simp⟩
  obtain ⟨x, y, rfl, hx⟩ : ∃ x y, buffer = x ++ y ∧ d.charReceived + x.length = d.charLength := by
    refine ⟨buffer.take (d.charLength - d.charReceived), buffer.drop _,
      (List.take_append_drop _ _).symm, ?_⟩
    rw [List.length_take]
    omega
  have hfirst : ∀ rest, Whole (d.held ++ (x ++ y) ++ rest) →
      IsChar (d.held ++ x) ∧ Whole (y ++ rest) := by
    intro rest hw
    rw [← List.append_assoc, List.append_assoc] at hw
    have hc : IsChar (d.held ++ x) := by
      rw [hh] at hw ⊢
      have ht := (Whole.take_announced (s := p ++ x ++ (y ++ rest)) hw hn).2
      rw [← List.cons_append, ← List.cons_append, List.take_left' ?_] at ht
      · exact ht
      · rw [List.length_append, List.length_cons]
        omega
    exact ⟨hc, hc.whole.of_append hw⟩
  have hw := @write_complete d hroom b p hh hrec hn hlt x y hx
  have hbuf : (d.held ++ x ++ d.charBuffer.drop (d.charReceived + x.length)).length = 4 := by
    have hn4 := (announced_le hn).2
    simp only [List.length_append, List.length_drop, hh, List.length_cons, hroom]
    omega
  by_cases hy : y = []
  · refine ⟨⟨d.held ++ x ++ d.charBuffer.drop (d.charReceived + x.length), 0, 0⟩, [d.held ++ x],
      ?_, ⟨hbuf, Or.inl ⟨rfl, rfl⟩⟩, ?_, ?_⟩
    · intro β toString
      rw [hw]
      simp [hy]
    · simp [held, hy]
    · intro rest hvalid r hr
      rw [List.mem_singleton.mp hr]
      exact (hfirst rest hvalid).1.whole
  · obtain ⟨d', ranges, hrest, hinv, hcat, hwhole⟩ := writeRest_spec
      ⟨d.held ++ x ++ d.charBuffer.drop (d.charReceived + x.length), 0, 0⟩ y hbuf ⟨rfl, rfl⟩
    refine ⟨d', (d.held ++ x) :: ranges, ?_, hinv, ?_, ?_⟩
    · intro β toString
      rw [hw]
      simp only [hy, if_false, hrest, List.flatMap_cons]
    · rw [List.flatten_cons, List.append_assoc, hcat, List.append_assoc]
    · intro rest hvalid r hr
      obtain ⟨hc, htail⟩ := hfirst rest hvalid
      rcases List.mem_cons.mp hr with rfl | hr
      · exact hc.whole
      · exact hwhole rest htail r hr

/-- Any number of chunks. -/
theorem writeAll_spec (chunks : List Bytes) (d : StringDecoder) (hd : d.Inv) :
    ∃ (d' : StringDecoder) (ranges : List Bytes), (∀ (β : Type) (toString : Bytes → List β),
        writeAll toString d chunks = .ok (d', ranges.flatMap toString)) ∧
      d'.Inv ∧ ranges.flatten ++ d'.held = d.held ++ chunks.flatten ∧
      ∀ rest, Whole (d.held ++ chunks.flatten ++ rest) → ∀ r ∈ ranges, Whole r := by
  induction chunks generalizing d with
  | nil => exact ⟨d, [], fun _ _ => rfl, hd, by simp, by simp⟩
  | cons chunk chunks ih =>
    obtain ⟨d₁, r₁, hw₁, hinv₁, hcat₁, hwhole₁⟩ := write_spec d hd chunk
    obtain ⟨d₂, r₂, hw₂, hinv₂, hcat₂, hwhole₂⟩ := ih d₁ hinv₁
    refine ⟨d₂, r₁ ++ r₂, ?_, hinv₂, ?_, ?_⟩
    · intro β toString
      simp only [writeAll, hw₁, hw₂, bind, Except.bind, List.flatMap_append]
      rfl
    · rw [List.flatten_append, List.append_assoc, hcat₂, ← List.append_assoc, hcat₁,
        List.append_assoc, List.flatten_cons]
    · intro rest hw r hr
      rw [List.flatten_cons] at hw
      have h₁ : ∀ r ∈ r₁, Whole r := hwhole₁ (chunks.flatten ++ rest) (by simpa using hw)
      have hflat : Whole r₁.flatten := Whole.flatten h₁
      rcases List.mem_append.mp hr with hr | hr
      · exact h₁ r hr
      · apply hwhole₂ rest _ r hr
        apply hflat.of_append
        rw [← List.append_assoc, ← List.append_assoc, hcat₁]
        simpa using hw

/-- The ranges of a valid stream, decoded one by one. -/
theorem flatMap_utf8Slice {ranges : List Bytes} (h : ∀ r ∈ ranges, Whole r) :
    ranges.flatMap utf8Slice = utf8Slice ranges.flatten := by
  induction ranges with
  | nil => rfl
  | cons r ranges ih =>
    rw [List.flatMap_cons, List.flatten_cons, utf8Slice_append (h r (by simp)),
      ih (fun r' hr => h r' (by simp [hr]))]

/-- A stream in any cutting: nothing is lost, repeated or reordered, at most three bytes of an
incomplete character are held back, and on a beginning of a valid stream the results are the
decoding of its whole characters. -/
theorem writeAll_stream (memory : Fin 4 → UInt8) (chunks : List Bytes) :
    ∃ (d : StringDecoder) (ranges : List Bytes),
      writeAll (fun b => [b]) (new memory) chunks = .ok (d, ranges) ∧
      writeAll utf8Slice (new memory) chunks = .ok (d, ranges.flatMap utf8Slice) ∧
      ranges.flatten ++ d.held = chunks.flatten ∧
      d.charReceived ≤ d.charLength ∧ d.charLength ≤ 4 ∧
      (d.charLength ≠ 0 → d.charReceived < d.charLength) ∧
      ∀ rest, Whole (chunks.flatten ++ rest) →
        (∀ r ∈ ranges, Whole r) ∧
        (∀ v u, Whole v → v ++ u = chunks.flatten → ∃ x, v ++ x = ranges.flatten) ∧
        ranges.flatMap utf8Slice = utf8Slice ranges.flatten := by
  obtain ⟨d, ranges, hw, hinv, hcat, hwhole⟩ := writeAll_spec chunks _ (new_inv memory)
  have hnil : (new memory).held = [] := rfl
  rw [hnil, List.nil_append] at hcat hwhole
  refine ⟨d, ranges, ?_, hw _ utf8Slice, hcat, ?_⟩
  · rw [hw]
    simp
  have hbounds : d.charReceived ≤ d.charLength ∧ d.charLength ≤ 4 ∧
      (d.charLength ≠ 0 → d.charReceived < d.charLength) := by
    rcases hinv.pending with ⟨h0, hr0⟩ | ⟨b, p, -, hrec, hn, hlt⟩
    · omega
    · have hn4 := (announced_le hn).2
      omega
  refine ⟨hbounds.1, hbounds.2.1, hbounds.2.2, ?_⟩
  intro rest hvalid
  have hr := hwhole rest hvalid
  have hflat : Whole ranges.flatten := Whole.flatten hr
  refine ⟨hr, ?_, flatMap_utf8Slice hr⟩
  intro v u hv he
  have hheld : Whole (d.held ++ rest) := by
    apply hflat.of_append
    rw [← List.append_assoc, hcat]
    exact hvalid
  exact hflat.le_of_prefix (hinv.partial_held hheld) hv (he.trans hcat.symm)

end StringDecoder
end NodeJS
