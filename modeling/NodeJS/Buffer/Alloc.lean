import NodeJS.Buffer.Slice
import NodeJS.Lib.Bump

/-! The `Buffer` constructor and the pool it takes small Buffers from. The room is reserved from
`Buffer.byteLength` before the string is written, so the two had better agree. -/
namespace NodeJS

open Base64

def poolSize : ℕ := 8 * 1024

/-- The first argument of `new Buffer`; an encoding goes with a string. -/
inductive Subject
  | number (n : ℕ)
  | array (elements : Bytes)
  | string (s : JSString) (encoding : Encoding)

/-- `this.length` before anything is stored. -/
def Subject.length : Subject → ℤ
  | .number n => n
  | .array elements => elements.length
  | .string s encoding => byteLength encoding s

/-- A Buffer that was constructed, the `SlowBuffer` it is in, and the room it was given. -/
structure Live where
  parent : ℕ
  window : Window
  reserved : ℤ

def Live.region (b : Live) : Lib.Region ℕ := ⟨b.parent, b.window.offset, b.window.length⟩

/-- The current pool is one of the `count` many `SlowBuffer`s made so far. -/
structure Heap where
  pool : Option (ℕ × ℤ)
  count : ℕ
  live : List Live

def Heap.init : Heap := ⟨none, 0, []⟩

inductive ConstructError
  | badArgument
  | fatal
  | write (error : WriteError)
  deriving DecidableEq

def allocPool (h : Heap) : Heap := { h with pool := some (h.count, 0), count := h.count + 1 }

/-- Where a Buffer will be: its parent and the offset in it. -/
structure Place where
  parent : ℕ
  parentLength : ℕ
  offset : ℤ

/-- The middle of the constructor, which finds room for `length` bytes. -/
def reserve (h : Heap) (length : ℤ) : Heap × Except ConstructError Place :=
  if length > poolSize then
    -- new SlowBuffer(length)
    if ¬ IsInt32 length then (h, .error .badArgument)
    else if length > kMaxLength then (h, .error .fatal)
    else ({ h with count := h.count + 1 }, .ok ⟨h.count, length.toNat, 0⟩)
  else
    let (h, id, used) := match h.pool with
      | none => (allocPool h, h.count, 0)
      | some (id, used) =>
        if poolSize - used < length then (allocPool h, h.count, 0) else (h, id, used)
    ({ h with pool := some (id, used + length) }, .ok ⟨id, poolSize, used⟩)

/-- The end of the constructor: `makeFastBuffer` on what is then `this.length`. -/
def finish (h : Heap) (place : Place) (reserved length : ℤ) : Heap × Except ConstructError Unit :=
  match newWindow place.parentLength length place.offset with
  | .error _ => (h, .error .fatal)
  | .ok window => ({ h with live := ⟨place.parent, window, reserved⟩ :: h.live }, .ok ())

def construct (h : Heap) (subject : Subject) : Heap × Except ConstructError Unit :=
  let length := subject.length
  match reserve h length with
  | (h, .error e) => (h, .error e)
  | (h, .ok place) =>
    match subject with
    | .string s encoding =>
      match Window.write ⟨place.parentLength, place.offset, length⟩ s 0 encoding with
      | .error e => (h, .error (.write e))
      | .ok r => finish h place length r.written
    | _ => finish h place length length

/-! ### What is promised -/

/-- Buffers do not overlap, lie inside their parents and keep to the room they were given, and
the pool is not used past its end. -/
structure Heap.Ok (h : Heap) : Prop where
  disjoint : (h.live.map Live.region).Pairwise Lib.Region.Disjoint
  inside : ∀ b ∈ h.live, 0 ≤ b.window.offset ∧
    b.window.offset + b.window.length ≤ b.window.parentLength
  le_reserved : ∀ b ∈ h.live, b.window.length ≤ b.reserved
  used_le : ∀ id used, h.pool = some (id, used) → 0 ≤ used ∧ used ≤ poolSize

/-- `pool.used` of a pool that stays in use does not decrease. -/
def Heap.Grows (h h' : Heap) : Prop :=
  ∀ id used used', h.pool = some (id, used) → h'.pool = some (id, used') → used ≤ used'

def RunOk (h : Heap) : List Subject → Prop
  | [] => h.Ok
  | subject :: subjects =>
    h.Ok ∧ h.Grows (construct h subject).1 ∧ RunOk (construct h subject).1 subjects

/-- Base64 text of whole quads with two padding characters too many, of a length that a Buffer
can have. -/
def Subject.Overfull : Subject → Prop
  | .string s .base64 =>
    OverPadded (s.flatMap utf8Unit) ∧ byteLength .base64 s ≤ kMaxLength
  | _ => False

/-! ### The room reserved for base64 -/

theorem high_of_or {m x : UInt16} (h : m.toNat.testBit 7 = true) : 0x80 ≤ (m ||| x).toUInt8 := by
  have hbit : ((m ||| x).toUInt8.toNat).testBit 7 = true := by
    rw [UInt16.toNat_toUInt8, UInt16.toNat_or, Nat.testBit_mod_two_pow, Nat.testBit_or, h]
    rfl
  have hge := Nat.ge_two_pow_of_testBit hbit
  rw [UInt8.le_iff_toNat_le]
  exact hge

/-- All bytes of a character that is not ASCII have the high bit set. -/
theorem high_of_utf8Unit {c : UInt16} (h : ¬ c ≤ 0x7f) : ∀ b ∈ utf8Unit c, 0x80 ≤ b := by
  unfold utf8Unit
  simp only [h, if_false]
  split_ifs
  · simp only [List.forall_mem_cons]
    exact ⟨high_of_or (by decide), high_of_or (by decide), by simp⟩
  · simp only [List.forall_mem_cons]
    exact ⟨high_of_or (by decide), high_of_or (by decide), high_of_or (by decide), by simp⟩

theorem not_isAlpha_of_high {b : UInt8} (h : 0x80 ≤ b) : ¬ IsAlpha b ∧ b ≠ pad := by
  have hall : ∀ n < 256, 128 ≤ n → ¬ (0 : ℤ) ≤ unbase64Table.getD n (-1) := by decide +kernel
  have hb := UInt8.le_iff_toNat_le.mp h
  simp only [UInt8.reduceToNat] at hb
  refine ⟨hall b.toNat b.toNat_lt hb, ?_⟩
  rintro rfl
  exact absurd h (by decide)

/-- A unit is an alphabet character of the ASCII text or a padding character of the UTF-8 text,
not both. -/
theorem count_pad_unit (c : UInt16) :
    (utf8Unit c).count pad + (if IsAlpha (asciiByte c) then 1 else 0) ≤ 1 := by
  by_cases hc : c ≤ 0x7f
  · have hunit : utf8Unit c = [lowByte c] := by simp [utf8Unit, hc, lowByte]
    by_cases hp : lowByte c = pad
    · have ha : asciiByte c = pad := by
        unfold asciiByte
        rw [hp, if_neg (by decide)]
      rw [hunit, hp, ha, if_neg not_isAlpha_pad]
      decide
    · rw [hunit, List.count_singleton, if_neg (by simpa using hp)]
      split_ifs <;> omega
  · have hzero : (utf8Unit c).count pad = 0 := by
      apply List.count_eq_zero_of_not_mem
      intro hmem
      exact (not_isAlpha_of_high (high_of_utf8Unit hc pad hmem)).2 rfl
    rw [hzero]
    split_ifs <;> omega

theorem count_pad_add_length_alphabet (s : JSString) :
    (s.flatMap utf8Unit).count pad + (alphabet (asciiValue s)).length ≤ s.length := by
  induction s with
  | nil => simp [asciiValue]
  | cons c s ih =>
    have hc := count_pad_unit c
    have ha : (alphabet (asciiValue (c :: s))).length =
        (if IsAlpha (asciiByte c) then 1 else 0) + (alphabet (asciiValue s)).length := by
      simp only [asciiValue, List.map_cons]
      split_ifs with h
      · rw [alphabet_cons_pos h, List.length_cons]
        omega
      · rw [alphabet_cons_neg h]
        omega
    rw [List.flatMap_cons, List.count_append, ha, List.length_cons]
    omega

/-- The size estimate of a text that is not too short: its last two characters are taken off
for padding. -/
theorem base64DecodedSize_append (body : Bytes) (y x : UInt8) {n : ℕ}
    (hn : unpaddedSize (body ++ [y, x]).length = n + [y, x].count pad) :
    base64DecodedSize (body ++ [y, x]) = ⟨n, false⟩ := by
  have hlast : (body ++ [y, x])[(body ++ [y, x]).length - 1]? = some x := by simp
  have hprev : (body ++ [y, x])[(body ++ [y, x]).length - 2]? = some y := by simp
  simp only [base64DecodedSize, hlast, hprev, Option.some.injEq, hn]
  by_cases hx : x = pad <;> by_cases hy : y = pad
  · simp [hx, hy, SizeT.dec]
  · simp [hx, hy, SizeT.dec]
  · simp [hx, hy, SizeT.dec]
  · simp [hx, hy]

theorem unpaddedSize_ge {n : ℕ} (h : 2 ≤ n) : n * 3 / 4 ≤ unpaddedSize n := by
  unfold unpaddedSize
  dsimp only
  split_ifs <;> omega

theorem alphabet_flatMap_utf8Unit {s : JSString} (h : ∀ c ∈ s, c ≤ 0x7f) :
    alphabet (s.flatMap utf8Unit) = alphabet (asciiValue s) := by
  induction s with
  | nil => rfl
  | cons c s ih =>
    have hunit : utf8Unit c = [lowByte c] := by simp [utf8Unit, h c (by simp), lowByte]
    rw [List.flatMap_cons, hunit, asciiValue, List.map_cons, List.singleton_append]
    have ih := ih fun d hd => h d (by simp [hd])
    by_cases hz : lowByte c = 0
    · have ha : asciiByte c = 0x20 := by simp [asciiByte, hz]
      rw [hz, ha, alphabet_cons_neg (by decide), alphabet_cons_neg (by decide)]
      exact ih
    · have ha : asciiByte c = lowByte c := by simp [asciiByte, hz]
      rw [ha]
      by_cases hA : IsAlpha (lowByte c)
      · rw [alphabet_cons_pos hA, alphabet_cons_pos hA, ih]
        rfl
      · rw [alphabet_cons_neg hA, alphabet_cons_neg hA]
        exact ih

theorem length_le_flatMap_utf8Unit (s : JSString) : s.length ≤ (s.flatMap utf8Unit).length := by
  induction s with
  | nil => simp
  | cons c s ih =>
    have hpos := unitBytes_length_pos (e := .utf8) (by decide) c
    rw [unitBytes] at hpos
    rw [List.flatMap_cons, List.length_append, List.length_cons]
    omega

theorem length_lt_flatMap_utf8Unit {s : JSString} {c : UInt16} (hc : c ∈ s) (h : ¬ c ≤ 0x7f) :
    s.length < (s.flatMap utf8Unit).length := by
  obtain ⟨l, r, rfl⟩ := List.append_of_mem hc
  have hl := length_le_flatMap_utf8Unit l
  have hr := length_le_flatMap_utf8Unit r
  have hunit : 2 ≤ (utf8Unit c).length := by
    rw [length_utf8Unit, if_neg h]
    split_ifs <;> omega
  rw [List.flatMap_append, List.flatMap_cons, List.length_append, List.length_append,
    List.length_append, List.length_cons]
  omega

theorem not_overPadded_of_high {src : Bytes} {b : UInt8} (hb : b ∈ src) (h : 0x80 ≤ b) :
    ¬ OverPadded src := by
  rintro ⟨quads, rfl, -, hquads⟩
  obtain ⟨hA, hP⟩ := not_isAlpha_of_high h
  rcases List.mem_append.mp hb with hq | hp
  · exact hA (hquads b hq)
  · simp only [List.mem_cons, List.not_mem_nil, or_false, or_self] at hp
    exact hP hp

/-- The estimate made of the UTF-8 text covers what the ASCII text decodes to, over-padded
texts apart. -/
theorem base64_reserved_iff (s : JSString) :
    ((base64DecodedSize (s.flatMap utf8Unit)).wrapped = false ∧
      (decode (asciiValue s)).length ≤ (base64DecodedSize (s.flatMap utf8Unit)).val) ↔
    ¬ OverPadded (s.flatMap utf8Unit) := by
  by_cases hascii : ∀ c ∈ s, c ≤ 0x7f
  · rw [← base64DecodedSize_sound_iff, length_decode, length_decode,
      alphabet_flatMap_utf8Unit hascii]
  simp only [not_forall] at hascii
  obtain ⟨c, hc, hhigh⟩ := hascii
  obtain ⟨b, hb⟩ := List.exists_mem_of_length_pos
    (unitBytes_length_pos (e := .utf8) (by decide) c)
  have hno : ¬ OverPadded (s.flatMap utf8Unit) :=
    not_overPadded_of_high (List.mem_flatMap.mpr ⟨c, hc, hb⟩) (high_of_utf8Unit hhigh b hb)
  have hlen := length_lt_flatMap_utf8Unit hc hhigh
  have hcount := count_pad_add_length_alphabet s
  have hpos : 0 < s.length := List.length_pos_of_mem hc
  simp only [hno, not_false_iff, iff_true, length_decode]
  generalize (alphabet (asciiValue s)).length = k at *
  obtain ⟨body, y, x, he⟩ : ∃ body y x, s.flatMap utf8Unit = body ++ [y, x] :=
    exists_last_two (by omega)
  have hu := unpaddedSize_ge (n := (s.flatMap utf8Unit).length) (by omega)
  rw [he] at hlen hcount hu ⊢
  rw [List.count_append] at hcount
  have hpads : [y, x].count pad ≤ 2 := List.count_le_length
  have hsize := base64DecodedSize_append body y x
    (n := unpaddedSize (body ++ [y, x]).length - [y, x].count pad) (by omega)
  rw [hsize]
  refine ⟨rfl, ?_⟩
  dsimp only
  omega

theorem byteLength_base64 (s : JSString) :
    byteLength .base64 s =
      if (base64DecodedSize (s.flatMap utf8Unit)).wrapped then -1
      else ((base64DecodedSize (s.flatMap utf8Unit)).val : ℤ) := rfl

theorem asciiValue_eq_of_overPadded {s : JSString} (h : OverPadded (s.flatMap utf8Unit)) :
    s.flatMap utf8Unit = asciiValue s := by
  have hmem : ∀ b ∈ s.flatMap utf8Unit, b ≠ 0 := by
    obtain ⟨quads, he, -, hquads⟩ := h
    rw [he]
    rintro b hb rfl
    rcases List.mem_append.mp hb with hq | hp
    · exact absurd (hquads 0 hq) (by decide)
    · exact absurd hp (by decide)
  have hascii : ∀ c ∈ s, utf8Unit c = [lowByte c] := by
    intro c hc
    by_contra hne
    have hhigh : ¬ c ≤ 0x7f := fun hle => hne (by simp [utf8Unit, hle, lowByte])
    obtain ⟨b, hb⟩ := List.exists_mem_of_length_pos
      (unitBytes_length_pos (e := .utf8) (by decide) c)
    exact not_overPadded_of_high (List.mem_flatMap.mpr ⟨c, hc, hb⟩)
      (high_of_utf8Unit hhigh b hb) h
  rw [asciiValue, List.map_eq_flatMap]
  apply List.flatMap_congr
  intro c hc
  have hz : lowByte c ≠ 0 := by
    apply hmem
    apply List.mem_flatMap.mpr
    exact ⟨c, hc, by rw [hascii c hc]; simp⟩
  rw [hascii c hc, asciiByte, if_neg hz]

/-- What is over-padded gets one byte less than it decodes to, and `"=="` less than none. -/
theorem byteLength_overPadded {s : JSString} (h : OverPadded (s.flatMap utf8Unit)) :
    byteLength .base64 s = -1 ∨
      0 < byteLength .base64 s ∧ byteLength .base64 s % 3 = 2 ∧
        (base64DecodedSize (asciiValue s)).val = byteLength .base64 s ∧
        (decode (asciiValue s)).length = byteLength .base64 s + 1 := by
  have heq := asciiValue_eq_of_overPadded h
  obtain ⟨quads, hu, hmod, hquads⟩ := h
  rw [byteLength_base64, length_decode, ← heq, hu]
  have halpha : (alphabet (quads ++ [pad, pad])).length = quads.length := by
    rw [alphabet_append, alphabet_cons_neg not_isAlpha_pad, alphabet_cons_neg not_isAlpha_pad,
      alphabet_nil, List.append_nil]
    exact (length_alphabet_eq_iff quads).mpr hquads
  obtain ⟨q, hq⟩ : ∃ q, quads.length = 4 * q := ⟨quads.length / 4, by omega⟩
  rcases Nat.eq_zero_or_pos q with h0 | hpos
  · left
    obtain rfl : quads = [] := List.length_eq_zero_iff.mp (by omega)
    decide
  · right
    have hsize := base64DecodedSize_append quads pad pad (n := 3 * q - 1) (by
      rw [List.length_append, hq]
      simp [unpaddedSize]
      omega)
    rw [hsize, halpha, hq]
    dsimp only
    rw [if_neg (by simp)]
    omega

/-! ### Constructions that keep to their room -/

/-- The heap is a bump allocator: `mark` says how far each `SlowBuffer` has been given out, which
for the pool is `pool.used`. -/
structure Heap.Inv (h : Heap) (mark : ℕ → ℤ) : Prop where
  packed : Lib.Packed mark (h.live.map Live.region)
  nonneg : ∀ i, 0 ≤ mark i
  fresh : ∀ i, h.count ≤ i → mark i = 0
  pool : ∀ id used, h.pool = some (id, used) → id < h.count ∧ used = mark id ∧ used ≤ poolSize
  live : ∀ b ∈ h.live, b.window.offset + b.window.length ≤ b.window.parentLength ∧
    b.window.length ≤ b.reserved

theorem Heap.init_inv : Heap.init.Inv fun _ => 0 where
  packed := Lib.Packed.nil
  nonneg := fun _ => le_refl _
  fresh := fun _ _ => rfl
  pool := by simp [Heap.init]
  live := by simp [Heap.init]

section
variable {h h' : Heap} {mark mark' : ℕ → ℤ}

theorem Heap.Inv.ok (hinv : h.Inv mark) : h.Ok where
  disjoint := hinv.packed.disjoint
  inside := by
    intro b hb
    have hstart := hinv.packed.start_nonneg b.region (List.mem_map_of_mem hb)
    exact ⟨hstart, (hinv.live b hb).1⟩
  le_reserved := fun b hb => (hinv.live b hb).2
  used_le := by
    intro id used hpool
    obtain ⟨-, hused, hle⟩ := hinv.pool id used hpool
    exact ⟨hused ▸ hinv.nonneg id, hle⟩

theorem Heap.Inv.grows (hinv : h.Inv mark) (hinv' : h'.Inv mark') (hle : ∀ i, mark i ≤ mark' i) :
    h.Grows h' := by
  intro id used used' hpool hpool'
  rw [(hinv.pool id used hpool).2.1, (hinv'.pool id used' hpool').2.1]
  exact hle id

theorem allocPool_inv (hinv : h.Inv mark) : (allocPool h).Inv mark where
  packed := hinv.packed
  nonneg := hinv.nonneg
  fresh := by
    intro i hi
    simp only [allocPool] at hi
    exact hinv.fresh i (by omega)
  pool := by
    intro id used hpool
    simp only [allocPool, Option.some.injEq, Prod.mk.injEq] at hpool ⊢
    obtain ⟨rfl, rfl⟩ := hpool
    exact ⟨by omega, (hinv.fresh _ (le_refl _)).symm, by simp⟩
  live := hinv.live

/-- Room for `length` bytes at `place` of heap `h`, marked as given out in `h'`. -/
structure Reserved (h : Heap) (mark : ℕ → ℤ) (h' : Heap) (mark' : ℕ → ℤ) (place : Place)
    (length : ℤ) : Prop where
  inv : h'.Inv mark'
  live_eq : h'.live = h.live
  mark_le : ∀ i, mark i ≤ mark' i
  start_le : mark place.parent ≤ place.offset
  nonneg : 0 ≤ place.offset
  stop_le : place.offset + length ≤ mark' place.parent
  fits : place.offset + length ≤ place.parentLength
  parent_le : place.parentLength ≤ kMaxLength

/-- Bytes of the pool that is there. -/
theorem reserved_pool (hinv : h.Inv mark) {id : ℕ} {used length : ℤ}
    (hpool : h.pool = some (id, used)) (h0 : 0 ≤ length) (hroom : ¬ poolSize - used < length) :
    Reserved h mark { h with pool := some (id, used + length) }
      (Function.update mark id (used + length)) ⟨id, poolSize, used⟩ length := by
  obtain ⟨hid, hused, hle⟩ := hinv.pool id used hpool
  have hmono : mark ≤ Function.update mark id (used + length) :=
    le_update_self_iff.mpr (by omega)
  refine ⟨⟨hinv.packed.advance hmono, ?_, ?_, ?_, hinv.live⟩, rfl, hmono, ?_, ?_, ?_, ?_, ?_⟩
  · intro i
    exact (hinv.nonneg i).trans (hmono i)
  · intro i hi
    rw [Function.update_of_ne (by dsimp only at hi; omega)]
    exact hinv.fresh i hi
  · intro id' used' hpool'
    simp only [Option.some.injEq, Prod.mk.injEq] at hpool'
    obtain ⟨rfl, rfl⟩ := hpool'
    rw [Function.update_self]
    exact ⟨hid, rfl, by omega⟩
  · exact hused.ge
  · exact hused ▸ hinv.nonneg id
  · rw [Function.update_self]
  · dsimp only
    omega
  · unfold kMaxLength poolSize
    dsimp only
    omega

/-- A `SlowBuffer` of its own. -/
theorem reserved_slow (hinv : h.Inv mark) {length : ℤ} (h0 : 0 ≤ length)
    (hmax : length ≤ kMaxLength) :
    Reserved h mark { h with count := h.count + 1 } (Function.update mark h.count length)
      ⟨h.count, length.toNat, 0⟩ length := by
  have hfresh := hinv.fresh h.count (le_refl _)
  have hmono : mark ≤ Function.update mark h.count length :=
    le_update_self_iff.mpr (by omega)
  refine ⟨⟨hinv.packed.advance hmono, ?_, ?_, ?_, hinv.live⟩, rfl, hmono, ?_, ?_, ?_, ?_, ?_⟩
  · intro i
    exact (hinv.nonneg i).trans (hmono i)
  · intro i hi
    dsimp only at hi
    rw [Function.update_of_ne (by omega)]
    exact hinv.fresh i (by omega)
  · intro id used hpool
    obtain ⟨hid, hused, hle⟩ := hinv.pool id used hpool
    rw [Function.update_of_ne (by omega)]
    exact ⟨by dsimp only; omega, hused, hle⟩
  · exact hfresh.le
  · exact le_refl _
  · rw [Function.update_self]
    dsimp only
    omega
  · dsimp only
    omega
  · dsimp only
    omega

/-- The room is found, or nothing has changed. -/
theorem reserve_spec (hinv : h.Inv mark) {length : ℤ} (h0 : 0 ≤ length) :
    (∃ e, reserve h length = (h, .error e) ∧ (kMaxLength : ℤ) < length) ∨
      ∃ h' place mark', reserve h length = (h', .ok place) ∧
        Reserved h mark h' mark' place length := by
  unfold reserve
  split_ifs with hbig hint hmax
  · left
    exact ⟨_, rfl, by omega⟩
  · right
    exact ⟨_, _, _, rfl, reserved_slow hinv h0 (by omega)⟩
  · left
    unfold IsInt32 at hint
    unfold kMaxLength
    exact ⟨_, rfl, by omega⟩
  · right
    have hnew : ¬ (poolSize : ℤ) - 0 < length := by omega
    have hr := reserved_pool (allocPool_inv hinv) rfl h0 hnew
    have hresult : ∀ r : Heap × ℕ × ℤ, r = (allocPool h, h.count, 0) →
        ∃ h' place mark', (({ r.1 with pool := some (r.2.1, r.2.2 + length) },
          .ok ⟨r.2.1, poolSize, r.2.2⟩) : Heap × Except ConstructError Place) = (h', .ok place) ∧
          Reserved h mark h' mark' place length := by
      rintro r rfl
      exact ⟨_, _, _, rfl, ⟨hr.inv, hr.live_eq, hr.mark_le, hr.start_le, hr.nonneg, hr.stop_le,
        hr.fits, hr.parent_le⟩⟩
    cases hpool : h.pool with
    | none => exact hresult _ rfl
    | some p =>
      obtain ⟨id, used⟩ := p
      dsimp only
      split_ifs with hroom
      · exact hresult _ rfl
      · exact ⟨_, _, _, rfl, reserved_pool hinv hpool h0 hroom⟩

end

theorem unitWrite_exact {e : Encoding} (he : e ≠ .base64) (s : JSString) (room : ℕ) :
    (unitWrite e s room).Exact e s room := by
  cases e with
  | utf8 => exact utf8Write_exact s room
  | ascii => exact singleByteWrite_exact he rfl s room
  | binary => exact singleByteWrite_exact he rfl s room
  | ucs2 => exact ucs2Write_exact s room
  | base64 => exact absurd rfl he

theorem unitWrite_written_le {e : Encoding} (he : e ≠ .base64) (s : JSString) (room : ℕ) :
    (unitWrite e s room).written ≤ room := by
  have hexact := unitWrite_exact he s room
  rw [hexact.written_eq, hexact.charsWritten_eq, encode_eq_flatMap he]
  exact Lib.length_flatMap_take_fit_le _ room s

/-- What a string takes of its Buffer when it is written from the start. -/
theorem Buffer.written_le (b : Buffer) {e : Encoding} {s : JSString} {r : Placed}
    (hw : b.write s 0 e = .ok r)
    (hbase64 : e = .base64 → (decode (asciiValue s)).length ≤ b.length) :
    r.written ≤ b.length := by
  obtain ⟨ho, hn, hle, hmax⟩ := b.inside
  by_cases he : e = .base64
  · subst he
    simp only [Window.write, slowBase64Write] at hw
    cases hs : base64Write b.parentLength s (b.offset + 0) with
    | error err =>
      rw [hs] at hw
      exact absurd hw (by simp [Except.map])
    | ok p =>
      rw [hs] at hw
      have hr := Except.ok.inj hw
      subst hr
      dsimp only
      rcases (base64Write_ok_iff _ _ _ _).mp hs with ⟨-, -, rfl⟩ | ⟨-, -, rfl⟩
      · simpa using hn
      · exact hbase64 rfl
  · rcases b.write_outcome he s 0 with ⟨-, -, herr⟩ | ⟨-, p, hok, -⟩
    · rw [herr] at hw
      exact absurd hw (by simp)
    · rw [hok] at hw
      have hr := Except.ok.inj hw
      subst hr
      have hwritten := unitWrite_written_le he s (b.room (b.position 0))
      have hroom : (b.room (b.position 0) : ℤ) = b.length := by
        have hpos : (b.position 0 : ℤ) = b.offset := by
          unfold kMaxLength at hmax
          unfold Window.position uint32Value
          omega
        unfold Window.room
        rw [if_pos (by omega)]
        omega
      dsimp only
      omega

/-- The Buffer is one more region of the heap, as long as it keeps to what was reserved. -/
theorem finish_inv {h h' : Heap} {mark mark' : ℕ → ℤ} {place : Place} {reserved length : ℤ}
    (hinv : h.Inv mark) (hr : Reserved h mark h' mark' place reserved)
    (hle : length ≤ reserved) : (finish h' place reserved length).1.Inv mark' := by
  unfold finish newWindow
  split_ifs
  · exact hr.inv
  · have hstop := hr.stop_le
    have hfits := hr.fits
    refine ⟨?_, hr.inv.nonneg, hr.inv.fresh, hr.inv.pool, ?_⟩
    · dsimp only
      rw [List.map_cons, hr.live_eq]
      exact hinv.packed.cons hr.nonneg hr.start_le hr.mark_le (by
        dsimp only [Live.region]
        omega)
    · intro b hb
      dsimp only at hb
      rcases List.mem_cons.mp hb with rfl | hb
      · exact ⟨by dsimp only; omega, hle⟩
      · exact hr.inv.live b hb

theorem byteLength_nonneg_of_not_overfull {s : JSString} {e : Encoding}
    (hs : ¬ (Subject.string s e).Overfull) :
    0 ≤ byteLength e s ∧ (byteLength e s ≤ kMaxLength → e = .base64 →
      (decode (asciiValue s)).length ≤ byteLength e s) := by
  cases e with
  | base64 =>
    have hb := byteLength_base64 s
    by_cases hover : OverPadded (s.flatMap utf8Unit)
    · rcases byteLength_overPadded hover with hneg | ⟨hpos, -⟩
      · exact absurd ⟨hover, by rw [hneg]; decide⟩ hs
      · exact ⟨hpos.le, fun hle => absurd ⟨hover, hle⟩ hs⟩
    · obtain ⟨hwrap, hle⟩ := (base64_reserved_iff s).mpr hover
      rw [hwrap, if_neg (by simp)] at hb
      rw [hb]
      exact ⟨by omega, fun _ _ => by omega⟩
  | utf8 => exact ⟨Int.natCast_nonneg _, fun _ h => absurd h (by simp)⟩
  | ascii => exact ⟨Int.natCast_nonneg _, fun _ h => absurd h (by simp)⟩
  | binary => exact ⟨Int.natCast_nonneg _, fun _ h => absurd h (by simp)⟩
  | ucs2 =>
    refine ⟨?_, fun _ h => absurd h (by simp)⟩
    simp only [byteLength]
    omega

/-- A construction of a subject that is not over-full. -/
theorem construct_inv {h : Heap} {mark : ℕ → ℤ} (hinv : h.Inv mark) {subject : Subject}
    (hs : ¬ subject.Overfull) :
    ∃ mark', (construct h subject).1.Inv mark' ∧ ∀ i, mark i ≤ mark' i := by
  have h0 : 0 ≤ subject.length := by
    cases subject with
    | number n => exact Int.natCast_nonneg n
    | array elements => exact Int.natCast_nonneg _
    | string s e => exact (byteLength_nonneg_of_not_overfull hs).1
  unfold construct
  dsimp only
  rcases reserve_spec hinv h0 with ⟨e, hres, -⟩ | ⟨h', place, mark', hres, hr⟩
  · rw [hres]
    exact ⟨mark, hinv, fun _ => le_refl _⟩
  rw [hres]
  refine ⟨mark', ?_, hr.mark_le⟩
  cases subject with
  | number n => exact finish_inv hinv hr (le_refl _)
  | array elements => exact finish_inv hinv hr (le_refl _)
  | string s e =>
    dsimp only
    have hin : Window.Inside ⟨place.parentLength, place.offset, byteLength e s⟩ :=
      ⟨hr.nonneg, h0, hr.fits, hr.parent_le⟩
    have hmax : byteLength e s ≤ kMaxLength := by
      have h1 := hr.fits
      have h2 := hr.parent_le
      have h3 := hr.nonneg
      simp only [Subject.length] at h1
      omega
    simp only [Subject.length]
    cases hw : Window.write ⟨place.parentLength, place.offset, byteLength e s⟩ s 0 e with
    | error err => exact hr.inv
    | ok r =>
      apply finish_inv hinv hr
      exact Buffer.written_le ⟨_, hin⟩ hw ((byteLength_nonneg_of_not_overfull hs).2 hmax)

/-! ### Over-full subjects -/

theorem construct_pool (h : Heap) (subject : Subject) :
    (construct h subject).1.pool = (reserve h subject.length).1.pool := by
  have hfinish : ∀ (h : Heap) place reserved length,
      (finish h place reserved length).1.pool = h.pool := by
    intro h place reserved length
    unfold finish
    split <;> rfl
  unfold construct
  dsimp only
  obtain ⟨h', r⟩ := reserve h subject.length
  cases r with
  | error e => rfl
  | ok place =>
    cases subject with
    | number n => rw [hfinish]
    | array elements => rw [hfinish]
    | string s e =>
      dsimp only
      cases Window.write ⟨place.parentLength, place.offset, (Subject.string s e).length⟩ s 0 e with
      | error err => rfl
      | ok r => rw [hfinish]

/-- Less than nothing is taken from the pool. -/
theorem reserve_negative {h : Heap} {mark : ℕ → ℤ} (hinv : h.Inv mark) :
    (h.pool = none ∧ (reserve h (-1)).1.pool = some (h.count, -1)) ∨
      ∃ id used, h.pool = some (id, used) ∧ (reserve h (-1)).1.pool = some (id, used - 1) := by
  have hsmall : ¬ (-1 : ℤ) > poolSize := by omega
  unfold reserve
  rw [if_neg hsmall]
  cases hpool : h.pool with
  | none =>
    left
    exact ⟨rfl, rfl⟩
  | some p =>
    obtain ⟨id, used⟩ := p
    right
    have hle := (hinv.pool id used hpool).2.2
    refine ⟨id, used, rfl, ?_⟩
    dsimp only
    rw [if_neg (by omega)]
    rfl

theorem finish_ok {h : Heap} {place : Place} {reserved length : ℤ} {w : Window}
    (hw : newWindow place.parentLength length place.offset = .ok w) :
    finish h place reserved length =
      ({ h with live := ⟨place.parent, w, reserved⟩ :: h.live }, .ok ()) := by
  simp only [finish, hw]

theorem construct_string {h h' : Heap} {s : JSString} {e : Encoding} {place : Place} {r : Placed}
    (hres : reserve h (byteLength e s) = (h', .ok place))
    (hw : Window.write ⟨place.parentLength, place.offset, byteLength e s⟩ s 0 e = .ok r) :
    construct h (.string s e) = finish h' place (byteLength e s) r.written := by
  simp only [construct, Subject.length, hres, hw]

/-- The Buffer made of an over-padded text is longer than its room. -/
theorem construct_overPadded {h : Heap} {mark : ℕ → ℤ} (hinv : h.Inv mark) {s : JSString}
    (hpos : 0 < byteLength .base64 s) (hmax : byteLength .base64 s < kMaxLength)
    (hsize : (base64DecodedSize (asciiValue s)).val = byteLength .base64 s)
    (hlen : (decode (asciiValue s)).length = byteLength .base64 s + 1) :
    ∃ b ∈ (construct h (.string s .base64)).1.live, b.reserved < b.window.length := by
  rcases reserve_spec hinv hpos.le with ⟨e, -, hbig⟩ | ⟨h', place, mark', hres, hr⟩
  · omega
  have hnonneg := hr.nonneg
  have hfits := hr.fits
  have hparent := hr.parent_le
  unfold kMaxLength at hmax hparent
  have hoff : sizeOfInt (int32Value (place.offset + 0)) = place.offset.toNat := by
    unfold sizeOfInt int32Value
    omega
  have hwrite : base64Write place.parentLength s (place.offset + 0) =
      .ok (decode (asciiValue s)) := by
    rw [base64Write_ok_iff, hoff]
    exact Or.inr ⟨by omega, by omega, rfl⟩
  have hwin : newWindow place.parentLength (decode (asciiValue s)).length place.offset =
      .ok ⟨place.parentLength, place.offset, (decode (asciiValue s)).length⟩ := by
    rw [newWindow, if_neg]
    unfold int32Value kMaxLength
    omega
  have hw : Window.write ⟨place.parentLength, place.offset, byteLength .base64 s⟩ s 0 .base64 =
      .ok ⟨⟨decode (asciiValue s), (decode (asciiValue s)).length, s.length⟩,
        place.offset.toNat⟩ := by
    unfold Window.write slowBase64Write
    dsimp only
    rw [hwrite, hoff]
    rfl
  rw [construct_string hres hw, finish_ok hwin]
  refine ⟨_, List.mem_cons_self, ?_⟩
  dsimp only
  omega

theorem construct_overfull {h : Heap} {mark : ℕ → ℤ} (hinv : h.Inv mark) {subject : Subject}
    (hs : subject.Overfull) :
    ¬ (h.Grows (construct h subject).1 ∧ (construct h subject).1.Ok) := by
  rintro ⟨hgrows, hok⟩
  match subject, hs with
  | .string s .base64, hs =>
    obtain ⟨hover, hmax⟩ := hs
    rcases byteLength_overPadded hover with hneg | ⟨hpos, hmod, hsize, hlen⟩
    · have hpool := construct_pool h (.string s .base64)
      rw [Subject.length, hneg] at hpool
      rcases reserve_negative hinv with ⟨-, hnew⟩ | ⟨id, used, hold, hnew⟩
      · have hused := (hok.used_le _ _ (hpool.trans hnew)).1
        omega
      · have hused := hgrows id used _ hold (hpool.trans hnew)
        omega
    · unfold kMaxLength at hmax
      obtain ⟨b, hb, hlt⟩ := construct_overPadded hinv hpos (by unfold kMaxLength; omega) hsize hlen
      have hle := hok.le_reserved b hb
      omega

theorem runOk_iff {h : Heap} {mark : ℕ → ℤ} (hinv : h.Inv mark) (subjects : List Subject) :
    RunOk h subjects ↔ ∀ subject ∈ subjects, ¬ subject.Overfull := by
  induction subjects generalizing h mark with
  | nil => simp [RunOk, hinv.ok]
  | cons subject subjects ih =>
    rw [List.forall_mem_cons]
    unfold RunOk
    by_cases hs : subject.Overfull
    · simp only [hs, not_true, false_and, iff_false]
      rintro ⟨-, hgrows, hrun⟩
      apply construct_overfull hinv hs
      refine ⟨hgrows, ?_⟩
      cases subjects with
      | nil => exact hrun
      | cons _ _ => exact hrun.1
    · obtain ⟨mark', hinv', hle⟩ := construct_inv hinv hs
      simp only [hinv.ok, hinv.grows hinv' hle, ih hinv', hs, not_false_iff, true_and]

/-- A sequence of constructions keeps all that is promised exactly when none of them is given
an over-padded base64 text. -/
theorem construct_run_iff (subjects : List Subject) :
    RunOk Heap.init subjects ↔ ∀ subject ∈ subjects, ¬ subject.Overfull :=
  runOk_iff Heap.init_inv subjects

/-- A Buffer of four bytes, and then `'=='` in base64, which gives one of them back. -/
theorem construct_gives_back :
    ¬ RunOk Heap.init [.number 4, .string (js "==") .base64] := by
  rintro ⟨-, -, -, hgrows, -⟩
  have h := hgrows 0 4 3 (by rfl) (by rfl)
  exact absurd h (by decide)

end NodeJS
