import NodeJS.Buffer.Terminator

/-! How much of the pool is used, and what the constructor makes of a string. -/
namespace NodeJS
open Base64 Lib

/-- The bytes that indexing reaches; one behind the end of the parent is missing. -/
def Window.content (w : Window) (mem : Memory ℕ UInt8) (parent : ℕ) : List (Option UInt8) :=
  (List.range' (uint32Value w.offset) (uint32Value w.length)).map fun i =>
    if i < w.parentLength then some (mem parent i) else none

/-- The bytes of all parents after `new Buffer(string, encoding)`. -/
def Heap.written (h : Heap) (mem : Memory ℕ UInt8) (s : JSString) (encoding : Encoding) :
    Memory ℕ UInt8 :=
  match reserve h (byteLength encoding s) with
  | (_, .error _) => mem
  | (_, .ok place) =>
    match Window.write ⟨place.parentLength, place.offset, byteLength encoding s⟩ s 0 encoding with
    | .error _ => mem
    | .ok r => mem.store place.parent r.position r.stored

/-- The bytes of the new Buffer, if the constructor does not throw. -/
def Heap.outcome (h : Heap) (mem : Memory ℕ UInt8) (s : JSString) (encoding : Encoding) :
    Option (List (Option UInt8)) :=
  match construct h (.string s encoding) with
  | (_, .error _) => none
  | (h', .ok ()) =>
    h'.live.head?.map fun b => b.window.content (h.written mem s encoding) b.parent

/-- Where in a pool a Buffer of `length` bytes begins. -/
def Heap.start (h : Heap) (length : ℤ) : ℤ :=
  match h.pool with
  | none => 0
  | some (_, used) => if poolSize - used < length then 0 else used

/-- Bytes of the pool from there on, as the native code sees them. -/
def Heap.room (h : Heap) (length : ℤ) : ℕ := poolSize - uint32Value (h.start length)

/-- What matters of the rooms that two pools have for a text: that there is any, and which
beginnings of the text fit. -/
def Alike (s : JSString) (room₁ room₂ : ℕ) : Encoding → Prop
  | .base64 =>
    let passes := fun room => 0 < room ∧ (base64DecodedSize (asciiValue s)).val ≤ room
    let stored := (alphabet (asciiValue s)).length * 3 / 4
    (passes room₁ ↔ passes room₂) ∧ (passes room₁ → min room₁ stored = min room₂ stored)
  | e =>
    s = [] ∨ (room₁ = 0 ↔ room₂ = 0) ∧
      ∀ k ≤ s.length, byteLength e (s.take k) ≤ room₁ ↔ byteLength e (s.take k) ≤ room₂

/-! ### What a window shows of what was stored -/

/-- Bytes in a parent that ends `room` bytes behind the first. -/
def inView (room : ℕ) (bytes : Bytes) : List (Option UInt8) :=
  (bytes.take room).map some ++ List.replicate (bytes.length - room) none

theorem inView_of_le {room : ℕ} {bytes : Bytes} (h : bytes.length ≤ room) :
    inView room bytes = bytes.map some := by
  rw [inView, List.take_of_length_le h, Nat.sub_eq_zero_of_le h, List.replicate_zero,
    List.append_nil]

theorem getElem?_inView (room : ℕ) (bytes : Bytes) (i : ℕ) :
    (inView room bytes)[i]? =
      if i < bytes.length then some (if i < room then bytes[i]? else none) else none := by
  unfold inView
  by_cases hi : i < min room bytes.length
  · rw [List.getElem?_append_left (by simpa using hi), if_pos (by omega), if_pos (by omega),
      List.getElem?_map, List.getElem?_take_of_lt (by omega),
      List.getElem?_eq_getElem (by omega)]
    rfl
  · have hlength : ((bytes.take room).map some).length = min room bytes.length := by simp
    rw [List.getElem?_append_right (by omega), List.getElem?_replicate, hlength]
    by_cases hb : i < bytes.length
    · rw [if_pos (by omega), if_pos hb, if_neg (by omega)]
    · rw [if_neg (by omega), if_neg hb]

theorem inView_eq_iff (room₁ room₂ : ℕ) (bytes : Bytes) :
    inView room₁ bytes = inView room₂ bytes ↔
      min room₁ bytes.length = min room₂ bytes.length := by
  have hcount : ∀ room, (inView room bytes).count none = bytes.length - room := by
    intro room
    have hsome : ((bytes.take room).map some).count none = 0 :=
      List.count_eq_zero_of_not_mem fun hmem => by
        obtain ⟨b, -, hb⟩ := List.mem_map.mp hmem
        cases hb
    rw [inView, List.count_append, hsome, List.count_replicate_self, Nat.zero_add]
  constructor
  · intro h
    have hsame := congrArg (List.count none) h
    rw [hcount, hcount] at hsame
    omega
  · intro h
    refine List.ext_getElem? fun i => ?_
    rw [getElem?_inView, getElem?_inView]
    by_cases hi : i < bytes.length
    · have hroom : i < room₁ ↔ i < room₂ := by omega
      simp only [hi, hroom, if_true]
    · rw [if_neg hi, if_neg hi]

/-- A window begins where the text was stored. -/
theorem content_store (mem : Memory ℕ UInt8) (parent parentLength : ℕ) {o : ℤ} {written : ℕ}
    {position : ℕ} {stored : Bytes} (hle : written ≤ stored.length)
    (hposition : stored ≠ [] → position = uint32Value o) :
    Window.content ⟨parentLength, o, written⟩ (mem.store parent position stored) parent =
      inView (parentLength - uint32Value o) (stored.take (uint32Value written)) := by
  have hlength : uint32Value (written : ℤ) ≤ written := by
    unfold uint32Value
    omega
  dsimp only [Window.content]
  generalize uint32Value (written : ℤ) = written at *
  refine List.ext_getElem? fun i => ?_
  rw [getElem?_inView, List.getElem?_map, List.length_take, Nat.min_eq_left (by omega)]
  by_cases hi : i < written
  · have hstored : i < stored.length := by omega
    rw [List.getElem?_eq_getElem (by simpa using hi), List.getElem_range', Nat.one_mul,
      Option.map_some, if_pos hi, hposition (List.ne_nil_of_length_pos (by omega)),
      mem.store_inside _ _ _ hstored, List.getElem?_take_of_lt hi,
      List.getElem?_eq_getElem hstored]
    by_cases hroom : uint32Value o + i < parentLength
    · rw [if_pos hroom, if_pos (by omega)]
    · rw [if_neg hroom, if_neg (by omega)]
  · rw [List.getElem?_eq_none (by simpa using hi), if_neg hi]
    rfl

/-! ### What a writer does at the start of a window -/

/-- A writer that is given a limit refuses a start behind the parent. -/
def Window.Started (w : Window) (s : JSString) (e : Encoding) : Prop :=
  let p := uint32Value w.offset
  if s ≠ [] ∧ w.parentLength ≤ p then w.write s 0 e = .error .offsetOutOfBounds
  else ∃ r, w.write s 0 e = .ok r ∧ (r.stored ≠ [] → r.position = p) ∧
    r.toWritten = unitWrite e s (min (sizeSub w.parentLength p) (uint32Value w.length))

section
variable {w : Window} {s : JSString} {e : Encoding}

theorem Window.started_of_uint32 (hw : w.write s 0 e =
      if s.length > 0 ∧ uint32Value w.offset ≥ w.parentLength then .error .offsetOutOfBounds
      else .ok ⟨unitWrite e s (min (sizeSub w.parentLength (uint32Value w.offset))
        (uint32Value w.length)), uint32Value w.offset⟩) :
    w.Started s e := by
  have hpos : s.length > 0 ↔ s ≠ [] := List.length_pos_iff
  unfold Window.Started
  dsimp only
  split_ifs with h
  · rwa [if_pos ⟨hpos.mpr h.1, h.2⟩] at hw
  · rw [if_neg fun h' => h ⟨hpos.mp h'.1, h'.2⟩] at hw
    exact ⟨_, hw, fun _ => rfl, rfl⟩

theorem Window.started_of_int32 (hP : w.parentLength ≤ kMaxLength)
    (hnil : ∀ room, unitWrite e [] room = ⟨[], 0, 0⟩)
    (hw : w.write s 0 e =
      let p := sizeOfInt (int32Value w.offset)
      if s.length > 0 ∧ p ≥ w.parentLength then .error .offsetOutOfBounds
      else .ok ⟨unitWrite e s (min (sizeSub w.parentLength p) (uint32Value w.length)), p⟩) :
    w.Started s e := by
  dsimp only at hw
  by_cases hs : s = []
  · subst hs
    rw [if_neg (by simp), hnil] at hw
    unfold Window.Started
    dsimp only
    rw [if_neg fun h => h.1 rfl, hnil]
    exact ⟨_, hw, fun h => absurd rfl h, rfl⟩
  unfold kMaxLength at hP
  rcases sizeOfInt_int32Value_cases w.offset with ⟨heq, -⟩ | ⟨hge, hge'⟩
  · rw [heq] at hw
    exact Window.started_of_uint32 hw
  · unfold Window.Started
    dsimp only
    rw [if_pos ⟨hs, by omega⟩, hw, if_pos ⟨List.length_pos_of_ne_nil hs, by omega⟩]

theorem Window.started (hP : w.parentLength ≤ kMaxLength) (s : JSString) (he : e ≠ .base64) :
    w.Started s e := by
  cases e with
  | utf8 =>
    by_cases hs : s = []
    · subst hs
      unfold Window.Started
      dsimp only
      rw [if_neg fun h => h.1 rfl]
      exact ⟨_, rfl, fun h => absurd rfl h, rfl⟩
    · apply Window.started_of_uint32
      have hs0 : ¬ s.length = 0 := by simpa using hs
      simp only [Window.write, slowUtf8Write, hs0, if_false, add_zero, sub_zero, unitWrite]
  | ucs2 =>
    apply Window.started_of_uint32
    simp only [Window.write, slowUcs2Write, add_zero, sub_zero, unitWrite]
  | ascii =>
    refine Window.started_of_int32 hP (fun room => by simp [unitWrite, asciiWrite]) ?_
    simp only [Window.write, slowAsciiWrite, add_zero, sub_zero, unitWrite]
  | binary =>
    refine Window.started_of_int32 hP (fun room => by simp [unitWrite, binaryWrite]) ?_
    simp only [Window.write, slowBinaryWrite, add_zero, sub_zero, unitWrite]
  | base64 => exact absurd rfl he

/-- The base64 writer goes by its estimate. -/
theorem Window.write_base64 (hP : w.parentLength ≤ kMaxLength) (hpos : 0 < w.parentLength)
    (s : JSString) :
    let room := w.parentLength - uint32Value w.offset
    if 0 < room ∧ (base64DecodedSize (asciiValue s)).val ≤ room then
      w.write s 0 .base64 = .ok ⟨⟨decode (asciiValue s), (decode (asciiValue s)).length, s.length⟩,
        uint32Value w.offset⟩
    else ∃ err, w.write s 0 .base64 = .error err := by
  unfold kMaxLength at hP
  have hwrite : w.write s 0 .base64 = (base64Write w.parentLength s w.offset).map fun p =>
      ⟨⟨p, p.length, s.length⟩, sizeOfInt (int32Value w.offset)⟩ := by
    simp only [Window.write, slowBase64Write, add_zero]
  have hok := base64Write_ok_iff w.parentLength s w.offset
  dsimp only
  rw [hwrite]
  split_ifs with h
  · obtain ⟨hroom, hest⟩ := h
    rcases sizeOfInt_int32Value_cases w.offset with ⟨heq, -⟩ | ⟨-, hge⟩
    · rw [heq] at hok
      rw [(hok _).mpr (.inr ⟨by omega, hest, rfl⟩), heq]
      rfl
    · omega
  · cases hq : base64Write w.parentLength s w.offset with
    | error err => exact ⟨err, rfl⟩
    | ok stored =>
      rcases (hok stored).mp hq with ⟨-, hnil, -⟩ | ⟨hlt, hest, -⟩
      · omega
      · rcases sizeOfInt_int32Value_cases w.offset with ⟨heq, -⟩ | ⟨hge, -⟩
        · rw [heq] at hlt hest
          exact absurd ⟨by omega, hest⟩ h
        · omega

/-- What is reported was stored, where the window begins. -/
theorem Window.write_covers (hP : w.parentLength ≤ kMaxLength) {r : Placed}
    (h : w.write s 0 e = .ok r) :
    r.written ≤ r.stored.length ∧ (r.stored ≠ [] → r.position = uint32Value w.offset) := by
  by_cases he : e = .base64
  · subst he
    unfold kMaxLength at hP
    simp only [Window.write, slowBase64Write, add_zero] at h
    cases hq : base64Write w.parentLength s w.offset with
    | error err =>
      rw [hq] at h
      cases h
    | ok stored =>
      rw [hq] at h
      obtain rfl := Except.ok.inj h
      refine ⟨le_refl _, fun _ => ?_⟩
      rcases sizeOfInt_int32Value_cases w.offset with ⟨heq, -⟩ | ⟨hge, -⟩
      · exact heq
      · rcases (base64Write_ok_iff _ _ _ _).mp hq with ⟨hz, -⟩ | ⟨hlt, -⟩ <;> omega
  have hstart := Window.started hP s he
  unfold Window.Started at hstart
  dsimp only at hstart
  split_ifs at hstart with hbehind
  · rw [hstart] at h
    cases h
  · obtain ⟨r', hok, hposition, hwritten⟩ := hstart
    obtain rfl := Except.ok.inj (hok.symm.trans h)
    refine ⟨?_, hposition⟩
    have hexact := unitWrite_exact he s
      (min (sizeSub w.parentLength (uint32Value w.offset)) (uint32Value w.length))
    rw [← hwritten] at hexact
    have htake := congrArg List.length hexact.stored_take
    rw [← hexact.written_eq, List.length_take] at htake
    omega

end

/-- The estimate is at most the padding short. -/
theorem length_decode_le (src : Bytes) :
    (decode src).length ≤ (base64DecodedSize src).val + 2 := by
  have halphabet := length_alphabet_le src
  rw [length_decode]
  by_cases hlength : src.length < 2
  · omega
  obtain ⟨body, y, x, rfl⟩ := @exists_last_two src (by omega)
  by_cases heq : body ++ [y, x] = [pad, pad]
  · rw [heq]
    decide
  have hge := unpaddedSize_ge (n := (body ++ [y, x]).length) (by omega)
  have hcount : [y, x].count pad ≤ 2 := List.count_le_length
  have hest : [y, x].count pad ≤ unpaddedSize (body ++ [y, x]).length := by
    by_cases hbody : body = []
    · subst hbody
      have hne : [y, x].count pad ≠ 2 := fun htwo =>
        heq (List.eq_replicate_iff.mpr ⟨rfl, fun b hb => (List.count_eq_length.mp htwo b hb).symm⟩ :
          [y, x] = List.replicate 2 pad)
      have hone : unpaddedSize ([] ++ [y, x] : Bytes).length = 1 := by simp [unpaddedSize]
      omega
    · have hpos := List.length_pos_of_ne_nil hbody
      rw [List.length_append, List.length_cons, List.length_singleton] at hge ⊢
      omega
  rw [base64DecodedSize_append body y x
    (n := unpaddedSize (body ++ [y, x]).length - [y, x].count pad) (by omega)]
  dsimp only
  omega

/-! ### What the constructor makes of a string -/

theorem newWindow_ok {p : ℕ} {length offset : ℤ} (h : int32Value length ≤ kMaxLength) :
    newWindow p length offset = .ok ⟨p, offset, length⟩ := by
  rw [newWindow, if_neg (not_lt.mpr h)]

section
variable {h h' : Heap} (mem : Memory ℕ UInt8) {s : JSString} {e : Encoding} {place : Place}

theorem Heap.outcome_error (hres : reserve h (byteLength e s) = (h', .ok place)) {err : WriteError}
    (hw : Window.write ⟨place.parentLength, place.offset, byteLength e s⟩ s 0 e = .error err) :
    h.outcome mem s e = none := by
  have hc : construct h (.string s e) = (h', .error (.write err)) := by
    simp only [construct, Subject.length, hres, hw]
  rw [Heap.outcome, hc]

theorem Heap.outcome_ok (hres : reserve h (byteLength e s) = (h', .ok place)) {r : Placed}
    (hw : Window.write ⟨place.parentLength, place.offset, byteLength e s⟩ s 0 e = .ok r)
    (hP : place.parentLength ≤ kMaxLength) (hmax : int32Value r.written ≤ kMaxLength) :
    h.outcome mem s e = some (inView (place.parentLength - uint32Value place.offset)
      (r.stored.take (uint32Value r.written))) := by
  have hm : h.written mem s e = mem.store place.parent r.position r.stored := by
    simp only [Heap.written, hres, hw]
  obtain ⟨hle, hposition⟩ := Window.write_covers hP hw
  rw [← content_store mem place.parent place.parentLength hle hposition, Heap.outcome,
    construct_string hres hw, finish_ok (newWindow_ok hmax), hm]
  rfl

/-- The engine refuses the length. -/
theorem Heap.outcome_fatal (hres : reserve h (byteLength e s) = (h', .ok place)) {r : Placed}
    (hw : Window.write ⟨place.parentLength, place.offset, byteLength e s⟩ s 0 e = .ok r)
    (hmax : ¬ int32Value r.written ≤ kMaxLength) : h.outcome mem s e = none := by
  have hn : newWindow place.parentLength r.written place.offset = .error .fatal := by
    rw [newWindow, if_pos (not_le.mp hmax)]
  have hf : finish h' place (byteLength e s) r.written = (h', .error .fatal) := by
    rw [finish, hn]
  rw [Heap.outcome, construct_string hres hw, hf]

/-- A length that a pool can have. -/
theorem conversions_small {n : ℕ} (h : n ≤ poolSize + 2) :
    uint32Value n = n ∧ int32Value n ≤ kMaxLength := by
  unfold poolSize at h
  unfold uint32Value int32Value kMaxLength
  omega

/-- A small text is given a place in the pool. -/
theorem reserve_small {n : ℤ} (hn : n ≤ poolSize) (h : Heap) :
    ∃ h' id, reserve h n = (h', .ok ⟨id, poolSize, h.start n⟩) := by
  unfold reserve Heap.start
  rw [if_neg (by omega)]
  cases h.pool with
  | none => exact ⟨_, _, rfl⟩
  | some p =>
    obtain ⟨id, used⟩ := p
    dsimp only
    split_ifs
    · exact ⟨_, _, rfl⟩
    · exact ⟨_, _, rfl⟩

theorem poolSize_le : poolSize ≤ kMaxLength := by
  unfold poolSize kMaxLength
  omega

/-- In the pool a text is stored as far as its characters fit. -/
theorem Heap.outcome_unit (h : Heap) (he : e ≠ .base64) (hn : byteLength e s ≤ poolSize) :
    h.outcome mem s e =
      if s ≠ [] ∧ h.room (byteLength e s) = 0 then none
      else some ((encode e (s.take (fit (unitBytes e) (h.room (byteLength e s)) s))).map some) := by
  obtain ⟨h', id, hres⟩ := reserve_small hn h
  have hstart := Window.started (w := ⟨poolSize, h.start (byteLength e s), byteLength e s⟩)
    poolSize_le s he
  have hroom : h.room (byteLength e s) = poolSize - uint32Value (h.start (byteLength e s)) := rfl
  have hlength := byteLength_eq he s
  have hpool : poolSize = 8192 := rfl
  unfold Window.Started at hstart
  dsimp only at hstart
  obtain ⟨p, hp⟩ : ∃ p, uint32Value (h.start (byteLength e s)) = p := ⟨_, rfl⟩
  rw [hp] at hstart hroom
  rw [hroom]
  split_ifs at hstart with hbehind
  · rw [if_pos ⟨hbehind.1, by omega⟩]
    exact Heap.outcome_error mem hres hstart
  · rw [if_neg fun hc => hbehind ⟨hc.1, by omega⟩]
    obtain ⟨r, hok, -, hwritten⟩ := hstart
    have hlimit : min (sizeSub poolSize p) (uint32Value (byteLength e s)) =
        min (poolSize - p) (encode e s).length := by
      have hbyte : uint32Value (byteLength e s) = (encode e s).length := by
        unfold uint32Value
        omega
      rw [hbyte]
      by_cases hs : s = []
      · subst hs
        simp
      · have hin : p < poolSize := by
          by_contra hge
          exact hbehind ⟨hs, by omega⟩
        unfold sizeSub
        omega
    rw [hlimit, encode_eq_flatMap he] at hwritten
    have hexact := unitWrite_exact he s (min (poolSize - p) (s.flatMap (unitBytes e)).length)
    rw [← hwritten] at hexact
    have hchars := hexact.charsWritten_eq
    rw [fit_min_length] at hchars
    have hstored := hexact.stored_take
    have hbytes := hexact.written_eq
    have hfits := length_flatMap_take_fit_le (unitBytes e) (poolSize - p) s
    rw [hchars] at hstored hbytes
    rw [← encode_eq_flatMap he] at hfits
    obtain ⟨huint, hint⟩ := conversions_small (n := r.written) (by omega)
    rw [Heap.outcome_ok mem hres hok poolSize_le hint, huint, hstored, hp]
    exact congrArg some (inView_of_le hfits)

/-- In base64 the estimate has to fit, and what is decoded is stored, fitting or not. -/
theorem Heap.outcome_base64 (h : Heap) (hn : byteLength .base64 s ≤ poolSize) :
    h.outcome mem s .base64 =
      if 0 < h.room (byteLength .base64 s) ∧
          (base64DecodedSize (asciiValue s)).val ≤ h.room (byteLength .base64 s) then
        some (inView (h.room (byteLength .base64 s)) (decode (asciiValue s)))
      else none := by
  obtain ⟨h', id, hres⟩ := reserve_small hn h
  have hwrite := Window.write_base64
    (w := ⟨poolSize, h.start (byteLength .base64 s), byteLength .base64 s⟩) poolSize_le
    (by show 0 < 8 * 1024; decide) s
  have hroom : h.room (byteLength .base64 s) =
      poolSize - uint32Value (h.start (byteLength .base64 s)) := rfl
  have hpool : poolSize = 8192 := rfl
  have hlength := length_decode_le (asciiValue s)
  dsimp only at hwrite
  rw [hroom]
  split_ifs at hwrite with hpasses
  · obtain ⟨huint, hint⟩ := conversions_small (n := (decode (asciiValue s)).length) (by omega)
    rw [if_pos hpasses, Heap.outcome_ok mem hres hwrite poolSize_le hint]
    dsimp only
    rw [huint, List.take_length]
  · obtain ⟨err, herr⟩ := hwrite
    rw [if_neg hpasses]
    exact Heap.outcome_error mem hres herr

/-- A large text is given a `SlowBuffer` of its own. -/
theorem Heap.outcome_slow (h₁ h₂ : Heap) (mem₁ mem₂ : Memory ℕ UInt8)
    (hn : (poolSize : ℤ) < byteLength e s) : h₁.outcome mem₁ s e = h₂.outcome mem₂ s e := by
  have hlarge : byteLength e s > poolSize := hn
  by_cases hfits : IsInt32 (byteLength e s) ∧ ¬ byteLength e s > kMaxLength
  · have hres : ∀ h : Heap, reserve h (byteLength e s) = ({ h with count := h.count + 1 },
        .ok ⟨h.count, (byteLength e s).toNat, 0⟩) := by
      intro h
      unfold reserve
      rw [if_pos hlarge, if_neg (not_not.mpr hfits.1), if_neg hfits.2]
    have hP : (byteLength e s).toNat ≤ kMaxLength := by omega
    rcases hw : Window.write ⟨(byteLength e s).toNat, 0, byteLength e s⟩ s 0 e with err | r
    · rw [Heap.outcome_error mem₁ (hres h₁) hw, Heap.outcome_error mem₂ (hres h₂) hw]
    by_cases hmax : int32Value r.written ≤ kMaxLength
    · rw [Heap.outcome_ok mem₁ (hres h₁) hw hP hmax, Heap.outcome_ok mem₂ (hres h₂) hw hP hmax]
    · rw [Heap.outcome_fatal mem₁ (hres h₁) hw hmax, Heap.outcome_fatal mem₂ (hres h₂) hw hmax]
  · have hnone : ∀ (h : Heap) (mem : Memory ℕ UInt8), h.outcome mem s e = none := by
      intro h mem
      obtain ⟨err, herr⟩ : ∃ err, reserve h (byteLength e s) = (h, .error err) := by
        unfold reserve
        rw [if_pos hlarge]
        by_cases hint : IsInt32 (byteLength e s)
        · rw [if_neg (not_not.mpr hint), if_pos (not_not.mp fun hmax => hfits ⟨hint, hmax⟩)]
          exact ⟨_, rfl⟩
        · rw [if_pos hint]
          exact ⟨_, rfl⟩
      have hc : construct h (.string s e) = (h, .error err) := by
        simp only [construct, Subject.length, herr]
      rw [Heap.outcome, hc]
    rw [hnone h₁ mem₁, hnone h₂ mem₂]

end

/-- Another beginning of the text takes another number of bytes. -/
theorem fit_eq_of_encode {e : Encoding} (he : e ≠ .base64) {s : JSString} {room₁ room₂ : ℕ}
    (h : (encode e (s.take (fit (unitBytes e) room₁ s))).length =
      (encode e (s.take (fit (unitBytes e) room₂ s))).length) :
    fit (unitBytes e) room₁ s = fit (unitBytes e) room₂ s := by
  rw [encode_eq_flatMap he, encode_eq_flatMap he] at h
  have hfits₁ := length_flatMap_take_fit_le (unitBytes e) room₁ s
  have hfits₂ := length_flatMap_take_fit_le (unitBytes e) room₂ s
  apply Nat.le_antisymm
  · exact le_fit _ (fit_le_length _ _ _) (by omega)
  · exact le_fit _ (fit_le_length _ _ _) (by omega)

theorem alike_unit_iff {e : Encoding} (he : e ≠ .base64) (s : JSString) (room₁ room₂ : ℕ) :
    Alike s room₁ room₂ e ↔ s = [] ∨ (room₁ = 0 ↔ room₂ = 0) ∧
      fit (unitBytes e) room₁ s = fit (unitBytes e) room₂ s := by
  have hsame : (∀ k ≤ s.length, byteLength e (s.take k) ≤ room₁ ↔ byteLength e (s.take k) ≤ room₂) ↔
      fit (unitBytes e) room₁ s = fit (unitBytes e) room₂ s := by
    rw [fit_eq_fit_iff]
    refine forall₂_congr fun k _ => ?_
    rw [byteLength_eq he, encode_eq_flatMap he]
    norm_cast
  rw [← hsame]
  cases e with
  | base64 => exact absurd rfl he
  | _ => rfl

/-- What is made of a string depends on the pool only through how much of the string the room left
in it takes. -/
theorem Heap.outcome_eq_iff (h₁ h₂ : Heap) (mem₁ mem₂ : Memory ℕ UInt8) (s : JSString)
    (e : Encoding) :
    h₁.outcome mem₁ s e = h₂.outcome mem₂ s e ↔ poolSize < byteLength e s ∨
      Alike s (h₁.room (byteLength e s)) (h₂.room (byteLength e s)) e := by
  by_cases hn : (poolSize : ℤ) < byteLength e s
  · exact iff_of_true (Heap.outcome_slow h₁ h₂ mem₁ mem₂ hn) (.inl hn)
  rw [or_iff_right hn]
  have hsmall := not_lt.mp hn
  by_cases he : e = .base64
  · subst he
    rw [Heap.outcome_base64 mem₁ h₁ hsmall, Heap.outcome_base64 mem₂ h₂ hsmall]
    unfold Alike
    dsimp only
    generalize h₁.room (byteLength .base64 s) = room₁
    generalize h₂.room (byteLength .base64 s) = room₂
    rw [← length_decode]
    split_ifs with hp₁ hp₂ hp₂
    · rw [Option.some.injEq, inView_eq_iff]
      exact ⟨fun h => ⟨iff_of_true hp₁ hp₂, fun _ => h⟩, fun h => h.2 hp₁⟩
    · exact iff_of_false (by simp) fun h => hp₂ (h.1.mp hp₁)
    · exact iff_of_false (by simp) fun h => hp₁ (h.1.mpr hp₂)
    · exact iff_of_true rfl ⟨iff_of_false hp₁ hp₂, fun h => absurd h hp₁⟩
  rw [Heap.outcome_unit mem₁ h₁ he hsmall, Heap.outcome_unit mem₂ h₂ he hsmall, alike_unit_iff he]
  generalize h₁.room (byteLength e s) = room₁
  generalize h₂.room (byteLength e s) = room₂
  by_cases hs : s = []
  · subst hs
    simp
  have hmap : (encode e (s.take (fit (unitBytes e) room₁ s))).map some =
      (encode e (s.take (fit (unitBytes e) room₂ s))).map some ↔
      fit (unitBytes e) room₁ s = fit (unitBytes e) room₂ s := by
    constructor
    · intro h
      exact fit_eq_of_encode he (by simpa using congrArg List.length h)
    · intro h
      rw [h]
  rw [or_iff_right hs]
  split_ifs with h₁ h₂ h₂
  · refine iff_of_true rfl ⟨iff_of_true h₁.2 h₂.2, ?_⟩
    rw [h₁.2, h₂.2]
  · exact iff_of_false (by simp) fun h => h₂ ⟨hs, h.1.mp h₁.2⟩
  · exact iff_of_false (by simp) fun h => h₁ ⟨hs, h.1.mpr h₂.2⟩
  · rw [Option.some.injEq, hmap, iff_and_self]
    exact fun _ => iff_of_false (fun h => h₁ ⟨hs, h⟩) fun h => h₂ ⟨hs, h⟩

/-- An empty text in base64 is refused once the pool is used up. -/
theorem Heap.outcome_usedUp : ¬ ∀ (h₁ h₂ : Heap) (mem₁ mem₂ : Memory ℕ UInt8) (s : JSString)
    (e : Encoding), h₁.outcome mem₁ s e = h₂.outcome mem₂ s e := by
  intro h
  have hsame := h Heap.init (construct Heap.init (.number poolSize)).1 (fun _ _ => 0)
    (fun _ _ => 0) [] .base64
  have hn : byteLength .base64 [] = 0 := rfl
  have hpool : (construct Heap.init (.number poolSize)).1.pool = some (0, 8192) := by
    rw [construct_pool]
    rfl
  have hfresh : Heap.init.room 0 = 8192 := rfl
  have hused : (construct Heap.init (.number poolSize)).1.room 0 = 0 := by
    rw [Heap.room, Heap.start, hpool]
    rfl
  have hsmall : byteLength .base64 [] ≤ poolSize := by
    rw [hn]
    exact Int.natCast_nonneg _
  rw [Heap.outcome_base64 _ _ hsmall, Heap.outcome_base64 _ _ hsmall, hn, hfresh, hused,
    if_pos (by decide), if_neg (by decide)] at hsame
  cases hsame

end NodeJS
