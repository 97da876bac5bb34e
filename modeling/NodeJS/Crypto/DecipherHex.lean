import NodeJS.Crypto.Decipher

/-! Ciphertext in hex. One digit is carried from call to call; once there is a carry it is put
in front of every later chunk, used up or not. -/
namespace NodeJS.Crypto

variable {Ctx : Type}

def IsHexDigit (c : UInt8) : Prop :=
  0x30 ≤ c ∧ c ≤ 0x39 ∨ 0x41 ≤ c ∧ c ≤ 0x46 ∨ 0x61 ≤ c ∧ c ≤ 0x66

instance : DecidablePred IsHexDigit := fun _ => inferInstanceAs (Decidable (_ ∨ _))

def digitValue (c : UInt8) : ℕ :=
  if c ≤ 0x39 then c.toNat - 48 else if c ≤ 0x46 then c.toNat - 55 else c.toNat - 87

/-- The bytes that pairs of digits stand for. -/
def ofHex : Bytes → Bytes
  | a :: b :: rest => UInt8.ofNat (16 * digitValue a + digitValue b) :: ofHex rest
  | _ => []

/-- The digits of all chunks, one after the other. -/
def digits (calls : List UpdateCall) : Bytes := calls.flatMap fun call => call.chunk.encode .binary

def IsOdd (call : UpdateCall) : Prop := call.chunk.length % 2 = 1

instance : DecidablePred IsOdd := fun _ => inferInstanceAs (Decidable (_ = _))

/-- The library is given the bytes the digits stand for, and no Buffer is changed. -/
structure DecodesHex (evp : Evp Ctx) (cipher : Decipher Ctx) (calls : List UpdateCall) : Prop where
  given : (decipherUpdates evp cipher calls).1.flatMap Updated.given = ofHex (digits calls)
  untouched : (decipherUpdates evp cipher calls).1.map Updated.chunk = calls.map UpdateCall.chunk

/-- Either no chunk is odd, or exactly two are, the first one a string, and all digits after the
second one have the value of the last digit before it. -/
def CarryFits (calls : List UpdateCall) : Prop :=
  (∀ call ∈ calls, ¬ IsOdd call) ∨
    ∃ pre first mid second post s, calls = pre ++ first :: (mid ++ second :: post) ∧
      (∀ call ∈ pre ++ mid ++ post, ¬ IsOdd call) ∧ IsOdd first ∧ IsOdd second ∧
      first.chunk = .str s ∧ ∃ d, (digits (pre ++ first :: mid)).getLast? = some d ∧
        ∀ e ∈ digits post, digitValue e = digitValue d

/-! ### Digits and bytes -/

theorem hex2i_value {c : UInt8} (h : IsHexDigit c) :
    (hex2i c).toNat = digitValue c ∧ digitValue c < 16 := by
  have hall := forall_byte (P := fun c => IsHexDigit c →
    (hex2i c).toNat = digitValue c ∧ digitValue c < 16) (by decide +kernel)
  exact hall c h

/-- A byte put together of two digits. -/
theorem hexByte_eq {a b : UInt8} (ha : IsHexDigit a) (hb : IsHexDigit b) :
    hex2i a <<< 4 ||| hex2i b = UInt8.ofNat (16 * digitValue a + digitValue b) := by
  obtain ⟨hva, hla⟩ := hex2i_value ha
  obtain ⟨hvb, hlb⟩ := hex2i_value hb
  have hall : ∀ m < 16, ∀ n < 16,
      UInt8.ofNat m <<< 4 ||| UInt8.ofNat n = UInt8.ofNat (16 * m + n) := by decide +kernel
  have h := hall _ hla _ hlb
  rwa [← hva, ← hvb, UInt8.ofNat_toNat, UInt8.ofNat_toNat, hva, hvb] at h

theorem hexDecode_eq {s : Bytes} (h : ∀ c ∈ s, IsHexDigit c) : hexDecode s = ofHex s := by
  fun_induction hexDecode s with
  | case1 a b rest ih =>
    rw [ofHex, ih (fun c hc => h c (by simp [hc])), hexByte_eq (h a (by simp)) (h b (by simp))]
  | case2 s hs =>
    unfold ofHex
    split
    · exact absurd rfl (hs _ _ _)
    · rfl

theorem length_hexDecode (s : Bytes) : (hexDecode s).length = s.length / 2 := by
  fun_induction hexDecode s with
  | case1 a b rest ih =>
    simp only [List.length_cons, ih]
    omega
  | case2 s hs =>
    match s with
    | [] => rfl
    | [_] => simp
    | a :: b :: rest => exact absurd rfl (hs a b rest)

theorem length_ofHex (s : Bytes) : (ofHex s).length = s.length / 2 := by
  fun_induction ofHex s with
  | case1 a b rest ih =>
    simp only [List.length_cons, ih]
    omega
  | case2 s hs =>
    match s with
    | [] => rfl
    | [_] => simp
    | a :: b :: rest => exact absurd rfl (hs a b rest)

theorem hexDecode_append {s : Bytes} (h : s.length % 2 = 0) (t : Bytes) :
    hexDecode (s ++ t) = hexDecode s ++ hexDecode t := by
  fun_induction hexDecode s with
  | case1 a b rest ih =>
    simp only [List.length_cons] at h
    simp only [List.cons_append, hexDecode]
    rw [ih (by omega)]
  | case2 s hs =>
    match s with
    | [] => rfl
    | [_] => simp at h
    | a :: b :: rest => exact absurd rfl (hs a b rest)

/-- Digits are read back from their bytes up to their case. -/
theorem ofHex_inj {s t : Bytes} (hs : ∀ c ∈ s, IsHexDigit c) (ht : ∀ c ∈ t, IsHexDigit c)
    (hlen : s.length = t.length) (heven : s.length % 2 = 0) :
    ofHex s = ofHex t ↔ s.map digitValue = t.map digitValue := by
  fun_induction ofHex s generalizing t with
  | case1 a b rest ih =>
    obtain ⟨c, d, rest', rfl⟩ : ∃ c d rest', t = c :: d :: rest' := by
      match t with
      | [] => simp at hlen
      | [_] => simp at hlen
      | c :: d :: rest' => exact ⟨c, d, rest', rfl⟩
    have ha := (hex2i_value (hs a (by simp))).2
    have hb := (hex2i_value (hs b (by simp))).2
    have hc := (hex2i_value (ht c (by simp))).2
    have hd := (hex2i_value (ht d (by simp))).2
    have hbyte : UInt8.ofNat (16 * digitValue a + digitValue b) =
        UInt8.ofNat (16 * digitValue c + digitValue d) ↔
          digitValue a = digitValue c ∧ digitValue b = digitValue d := by
      rw [← UInt8.toNat_inj, UInt8.toNat_ofNat', UInt8.toNat_ofNat']
      omega
    simp only [List.length_cons] at hlen heven
    simp only [ofHex, List.cons.injEq, List.map_cons, hbyte]
    rw [ih (fun x hx => hs x (by simp [hx])) (fun x hx => ht x (by simp [hx])) (by omega)
      (by omega)]
    tauto
  | case2 s hne =>
    match s with
    | [] =>
      rw [List.length_eq_zero_iff.mp hlen.symm]
      simp [ofHex]
    | [_] => simp at heven
    | a :: b :: rest => exact absurd rfl (hne a b rest)

/-- A row of values moved on by one place is the same row only if all its values are that of
the new one. -/
theorem map_shift_iff {s t : List UInt8} {h x : UInt8} (he : s ++ [x] = h :: t) :
    s.map digitValue = t.map digitValue ↔ ∀ e ∈ t, digitValue e = digitValue h := by
  induction t generalizing s h with
  | nil =>
    have hlen := congrArg List.length he
    simp only [List.length_append, List.length_cons, List.length_nil] at hlen
    rw [List.length_eq_zero_iff.mp (by omega : s.length = 0)]
    simp
  | cons d t ih =>
    cases s with
    | nil => simp at he
    | cons a s =>
      simp only [List.cons_append, List.cons.injEq] at he
      obtain ⟨rfl, he⟩ := he
      simp only [List.map_cons, List.cons.injEq, List.forall_mem_cons, ih he]
      constructor
      · rintro ⟨h1, h2⟩
        exact ⟨h1.symm, fun e hm => (h2 e hm).trans h1.symm⟩
      · rintro ⟨h1, h2⟩
        exact ⟨h1.symm, fun e hm => (h2 e hm).trans h1.symm⟩

/-! ### One update -/

theorem encode_binary (s : JSString) : encode .binary s = s.map lowByte := by
  induction s with
  | nil => rfl
  | cons c s ih =>
    rw [List.map_cons, ← ih]
    rfl

theorem length_data (chunk : Chunk) : (chunk.encode .binary).length = chunk.length := by
  cases chunk with
  | str s => simp [Chunk.encode, encode_binary, Chunk.length]
  | buffer b => rfl

/-- The digit in front of the next chunk. -/
def Decipher.carry (cipher : Decipher Ctx) : Bytes :=
  if cipher.incompleteHexFlag then [cipher.incompleteHex] else []

theorem decipherOutput_carry (past : ℕ → UInt8) (cipher : Decipher Ctx) (out : Bytes)
    (encoding : Option Encoding) :
    (decipherOutput past cipher out encoding).2.2.carry = cipher.carry := by
  unfold decipherOutput
  split_ifs
  · rfl
  · split <;> rfl

/-- With hex input an update works on the carry and the chunk. -/
theorem decipherUpdate_hex (evp : Evp Ctx) (cipher : Decipher Ctx) {call : UpdateCall}
    (hhex : call.input = some .hex) :
    (decipherUpdate evp cipher call).given = (hexInput cipher call.chunk).1 ∧
      (decipherUpdate evp cipher call).chunk = (hexInput cipher call.chunk).2.1 ∧
      (decipherUpdate evp cipher call).cipher.carry = (hexInput cipher call.chunk).2.2.carry := by
  simp only [decipherUpdate, decipherInput, hhex]
  split_ifs
  · exact ⟨rfl, rfl, decipherOutput_carry _ _ _ _⟩
  · exact ⟨rfl, rfl, rfl⟩

theorem hexInput_buf (cipher : Decipher Ctx) (data : Bytes) :
    (if cipher.incompleteHexFlag then cipher.incompleteHex :: data else data) =
      cipher.carry ++ data := by
  unfold Decipher.carry
  split_ifs <;> rfl

/-- An even number of digits is passed on; the carry stays where it is. -/
theorem hexInput_even {cipher : Decipher Ctx} {chunk : Chunk}
    (h : (cipher.carry ++ chunk.encode .binary).length % 2 = 0) :
    hexInput cipher chunk = (hexDecode (cipher.carry ++ chunk.encode .binary), chunk, cipher) := by
  unfold hexInput
  simp only [hexInput_buf]
  rw [if_neg (by simpa using h)]

/-- The last one of an odd number of digits is the next carry. -/
theorem hexInput_odd {cipher : Decipher Ctx} {chunk : Chunk} {body : Bytes} {d : UInt8}
    (h : cipher.carry ++ chunk.encode .binary = body ++ [d]) (heven : body.length % 2 = 0) :
    (hexInput cipher chunk).1 = hexDecode body ∧ (hexInput cipher chunk).2.2.carry = [d] ∧
      (cipher.carry ≠ [] → (hexInput cipher chunk).2.1 = chunk) ∧
      ((∃ s, chunk = .str s) → (hexInput cipher chunk).2.1 = chunk) ∧
      (cipher.carry = [] → ∀ b, chunk = .buffer b → d ≠ 0 → (hexInput cipher chunk).2.1 ≠ chunk) := by
  have hodd : (body ++ [d]).length % 2 ≠ 0 := by
    simp only [List.length_append, List.length_singleton]
    omega
  have hlen : (body ++ [d]).length - 1 = body.length := by simp
  unfold hexInput
  simp only [hexInput_buf, h]
  rw [if_pos hodd]
  simp only [hlen, List.take_left, true_and]
  refine ⟨?_, ?_, ?_, ?_⟩
  · simp [Decipher.carry]
  · intro hcarry
    have hflag : cipher.incompleteHexFlag = true := by
      by_contra hf
      exact hcarry (by simp [Decipher.carry, hf])
    cases chunk <;> simp [hflag]
  · rintro ⟨s, rfl⟩
    rfl
  · rintro hcarry b rfl hd
    have hflag : cipher.incompleteHexFlag = false := by
      by_contra hf
      simp [Decipher.carry, hf] at hcarry
    rw [hcarry] at h
    have hb : b = body ++ [d] := h
    simp only [hflag, Bool.false_eq_true, if_false, ne_eq, Chunk.buffer.injEq, hb]
    rw [List.set_append_right _ _ (le_refl _), Nat.sub_self]
    intro he
    have hs := List.append_cancel_left he
    simp only [List.set_cons_zero, List.cons.injEq, and_true] at hs
    exact hd hs.symm

/-! ### Successive updates -/

/-- The updates pass on the digits `sent` and leave `carry` for the next one. -/
structure Passes (evp : Evp Ctx) (cipher : Decipher Ctx) (calls : List UpdateCall)
    (sent carry : Bytes) : Prop where
  given : (decipherUpdates evp cipher calls).1.flatMap Updated.given = hexDecode sent
  even : sent.length % 2 = 0
  left : (decipherUpdates evp cipher calls).2.carry = carry
  untouched : (decipherUpdates evp cipher calls).1.map Updated.chunk = calls.map UpdateCall.chunk

theorem Passes.nil (evp : Evp Ctx) (cipher : Decipher Ctx) : Passes evp cipher [] [] cipher.carry :=
  ⟨rfl, rfl, rfl, rfl⟩

theorem Passes.append {evp : Evp Ctx} {cipher : Decipher Ctx} {a b : List UpdateCall}
    {sa sb ca cb : Bytes} (ha : Passes evp cipher a sa ca)
    (hb : Passes evp (decipherUpdates evp cipher a).2 b sb cb) :
    Passes evp cipher (a ++ b) (sa ++ sb) cb := by
  constructor
  · rw [decipherUpdates_append, List.flatMap_append, ha.given, hb.given, hexDecode_append ha.even]
  · have h1 := ha.even
    have h2 := hb.even
    rw [List.length_append]
    omega
  · rw [decipherUpdates_append, hb.left]
  · rw [decipherUpdates_append, List.map_append, List.map_append, ha.untouched, hb.untouched]

section
variable (evp : Evp Ctx) {cipher : Decipher Ctx} {call : UpdateCall}
  (hhex : call.input = some .hex)
include hhex

/-- Nothing is left over. -/
theorem Passes.even_one (h : (cipher.carry ++ call.chunk.encode .binary).length % 2 = 0) :
    Passes evp cipher [call] (cipher.carry ++ call.chunk.encode .binary) cipher.carry := by
  obtain ⟨hgiven, hchunk, hcarry⟩ := decipherUpdate_hex evp cipher hhex
  rw [hexInput_even h] at hgiven hchunk hcarry
  exact ⟨by simp [decipherUpdates, hgiven], h, hcarry, by simp [decipherUpdates, hchunk]⟩

/-- A digit is left over, and the chunk is a string or there was a carry before. -/
theorem Passes.odd_one {body : Bytes} {d : UInt8}
    (h : cipher.carry ++ call.chunk.encode .binary = body ++ [d]) (heven : body.length % 2 = 0)
    (hsafe : cipher.carry ≠ [] ∨ ∃ s, call.chunk = .str s) :
    Passes evp cipher [call] body [d] := by
  obtain ⟨hgiven, hchunk, hcarry⟩ := decipherUpdate_hex evp cipher hhex
  obtain ⟨hg, hc, hown, hstr, -⟩ := hexInput_odd h heven
  rw [hg] at hgiven
  rw [hc] at hcarry
  have hsame : (hexInput cipher call.chunk).2.1 = call.chunk := by
    rcases hsafe with hs | hs
    · exact hown hs
    · exact hstr hs
  rw [hsame] at hchunk
  exact ⟨by simp [decipherUpdates, hgiven], heven, hcarry, by simp [decipherUpdates, hchunk]⟩

end

theorem digits_cons (call : UpdateCall) (calls : List UpdateCall) :
    digits (call :: calls) = call.chunk.encode .binary ++ digits calls := rfl

theorem digits_append (a b : List UpdateCall) : digits (a ++ b) = digits a ++ digits b :=
  List.flatMap_append

theorem length_even {call : UpdateCall} (h : ¬ IsOdd call) :
    (call.chunk.encode .binary).length % 2 = 0 := by
  rw [length_data]
  unfold IsOdd at h
  omega

theorem length_odd {call : UpdateCall} (h : IsOdd call) :
    (call.chunk.encode .binary).length % 2 = 1 := by
  rw [length_data]
  exact h

/-- The last of an odd number of bytes. -/
theorem exists_last {s : Bytes} (h : s.length % 2 = 1) : ∃ body x, s = body ++ [x] := by
  rcases List.eq_nil_or_concat' s with rfl | h'
  · exact absurd h (by decide)
  · exact h'

/-- Even chunks go through as they are while there is no carry. -/
theorem passes_even (evp : Evp Ctx) {cipher : Decipher Ctx} {calls : List UpdateCall}
    (hhex : ∀ call ∈ calls, call.input = some .hex) (hcarry : cipher.carry = [])
    (heven : ∀ call ∈ calls, ¬ IsOdd call) : Passes evp cipher calls (digits calls) [] := by
  induction calls generalizing cipher with
  | nil =>
    rw [← hcarry]
    exact Passes.nil evp cipher
  | cons call calls ih =>
    have hlen := length_even (heven call (by simp))
    have hone : Passes evp cipher [call] _ _ :=
      Passes.even_one evp (hhex call (by simp)) (by simpa [hcarry])
    rw [hcarry, List.nil_append] at hone
    rw [digits_cons]
    exact hone.append (ih (fun c hc => hhex c (by simp [hc])) hone.left
      (fun c hc => heven c (by simp [hc])))

/-- With a carry, even chunks go through one digit late. -/
theorem passes_late (evp : Evp Ctx) (calls : List UpdateCall) {cipher : Decipher Ctx} {d : UInt8}
    (hhex : ∀ call ∈ calls, call.input = some .hex) (hcarry : cipher.carry = [d])
    (heven : ∀ call ∈ calls, ¬ IsOdd call) :
    ∃ sent e, sent ++ [e] = d :: digits calls ∧ Passes evp cipher calls sent [e] := by
  induction calls generalizing cipher d with
  | nil =>
    refine ⟨[], d, rfl, ?_⟩
    rw [← hcarry]
    exact Passes.nil evp cipher
  | cons call calls ih =>
    have hlen := length_even (heven call (by simp))
    obtain ⟨body, x, hbody⟩ : ∃ body x, d :: call.chunk.encode .binary = body ++ [x] :=
      ⟨_, _, (List.dropLast_append_getLast (List.cons_ne_nil _ _)).symm⟩
    have hlenb := congrArg List.length hbody
    simp only [List.length_cons, List.length_append, List.length_nil] at hlenb
    have hone : Passes evp cipher [call] body [x] :=
      Passes.odd_one evp (hhex call (by simp)) (by rw [hcarry]; exact hbody) (by omega)
        (Or.inl (by simp [hcarry]))
    obtain ⟨sent, e, he, hrest⟩ := ih (fun c hc => hhex c (by simp [hc])) hone.left
      (fun c hc => heven c (by simp [hc]))
    refine ⟨body ++ sent, e, ?_, hone.append hrest⟩
    rw [List.append_assoc, he, ← List.singleton_append, ← List.append_assoc, ← hbody, digits_cons,
      List.cons_append]

/-- With a carry, every odd chunk makes one digit more be sent. -/
theorem passes_length (evp : Evp Ctx) (calls : List UpdateCall) {cipher : Decipher Ctx}
    (hhex : ∀ call ∈ calls, call.input = some .hex) (hcarry : ∃ d, cipher.carry = [d]) :
    ∃ sent carry, Passes evp cipher calls sent carry ∧
      sent.length = (digits calls).length + (calls.filter IsOdd).length := by
  induction calls generalizing cipher with
  | nil => exact ⟨[], _, Passes.nil evp cipher, rfl⟩
  | cons call calls ih =>
    obtain ⟨d, hd⟩ := hcarry
    obtain ⟨sent, e, hone, hlen⟩ : ∃ sent e, Passes evp cipher [call] sent [e] ∧
        sent.length = (call.chunk.encode .binary).length + if IsOdd call then 1 else 0 := by
      by_cases hodd : IsOdd call
      · have hl := length_odd hodd
        have hone : Passes evp cipher [call] _ _ := Passes.even_one evp (hhex call (by simp))
          (by rw [hd]; simp only [List.singleton_append, List.length_cons]; omega)
        rw [hd] at hone
        exact ⟨_, d, hone, by simp [hodd]⟩
      · have hl := length_even hodd
        obtain ⟨sent, e, he, hone⟩ := passes_late evp [call]
          (fun c hc => hhex c (by simp [List.mem_singleton.mp hc])) hd
          (fun c hc => by rwa [List.mem_singleton.mp hc])
        have hl' := congrArg List.length he
        simp only [List.length_append, List.length_cons, List.length_nil, digits_cons] at hl'
        refine ⟨sent, e, hone, ?_⟩
        simp only [hodd, if_false, digits, List.flatMap_nil, List.length_nil] at hl' ⊢
        omega
    obtain ⟨sent', carry, hrest, hlen'⟩ := ih (fun c hc => hhex c (by simp [hc])) ⟨e, hone.left⟩
    refine ⟨_, carry, hone.append hrest, ?_⟩
    rw [List.length_append, hlen, hlen', digits_cons, List.length_append, List.filter_cons]
    by_cases hodd : IsOdd call
    · simp only [hodd, decide_true, if_true, List.length_cons]
      omega
    · simp only [hodd, decide_false, Bool.false_eq_true, if_false]
      omega

/-- Up to the second odd chunk all is well if the first one is a string. -/
theorem passes_two (evp : Evp Ctx) {cipher : Decipher Ctx} {pre mid : List UpdateCall}
    {first second : UpdateCall} {s : JSString} (hcarry : cipher.carry = [])
    (hhex : ∀ call ∈ pre ++ first :: (mid ++ [second]), call.input = some .hex)
    (hpre : ∀ call ∈ pre, ¬ IsOdd call) (hmid : ∀ call ∈ mid, ¬ IsOdd call)
    (hfirst : IsOdd first) (hsecond : IsOdd second) (hstr : first.chunk = .str s) :
    ∃ d, (digits (pre ++ first :: mid)).getLast? = some d ∧
      Passes evp cipher (pre ++ ([first] ++ (mid ++ [second])))
        (digits (pre ++ first :: (mid ++ [second]))) [d] := by
  have h1 := passes_even evp (fun c hc => hhex c (by simp [hc])) hcarry hpre
  have hlen := length_odd hfirst
  obtain ⟨body, x, hbody⟩ := exists_last hlen
  have hlenb := congrArg List.length hbody
  simp only [List.length_append, List.length_cons, List.length_nil] at hlenb
  have h2 : Passes evp (decipherUpdates evp cipher pre).2 [first] body [x] := Passes.odd_one evp
    (hhex first (by simp)) (by rw [h1.left]; exact hbody) (by omega) (Or.inr ⟨s, hstr⟩)
  obtain ⟨sent, d, hd, h3⟩ := passes_late evp mid (fun c hc => hhex c (by simp [hc])) h2.left hmid
  have hlens := h3.even
  have hlen2 := length_odd hsecond
  have h4 : Passes evp _ [second] _ _ := Passes.even_one evp (hhex second (by simp))
    (by rw [h3.left]; simp only [List.singleton_append, List.length_cons]; omega)
  rw [h3.left] at h4
  have hsplit : digits (pre ++ first :: mid) = digits pre ++ body ++ sent ++ [d] := by
    rw [digits_append, digits_cons, hbody]
    simp only [List.append_assoc, List.singleton_append, hd]
  refine ⟨d, by simp [hsplit], ?_⟩
  have hall := h1.append (h2.append (h3.append h4))
  have hsum : digits (pre ++ first :: (mid ++ [second])) =
      digits pre ++ (body ++ (sent ++ ([d] ++ second.chunk.encode .binary))) := by
    rw [← List.cons_append, ← List.append_assoc, digits_append, hsplit]
    simp [digits]
  rw [hsum]
  exact hall

/-! ### The whole stream -/

theorem digits_even {calls : List UpdateCall} (h : ∀ call ∈ calls, ¬ IsOdd call) :
    (digits calls).length % 2 = 0 := by
  induction calls with
  | nil => rfl
  | cons call calls ih =>
    have h1 := length_even (h call (by simp))
    have h2 := ih (fun c hc => h c (by simp [hc]))
    rw [digits_cons, List.length_append]
    omega

/-- The first odd chunk. -/
theorem exists_odd {calls : List UpdateCall} (h : ¬ ∀ call ∈ calls, ¬ IsOdd call) :
    ∃ pre first post, calls = pre ++ first :: post ∧ (∀ call ∈ pre, ¬ IsOdd call) ∧
      IsOdd first := by
  cases hf : calls.find? (fun call => decide (IsOdd call)) with
  | none =>
    rw [List.find?_eq_none] at hf
    exact absurd (by simpa using hf) h
  | some first =>
    obtain ⟨hodd, pre, post, he, hpre⟩ := List.find?_eq_some_iff_append.mp hf
    exact ⟨pre, first, post, he, by simpa using hpre, by simpa using hodd⟩

/-- An even number of digits in chunks that are not all even has two odd ones. -/
theorem exists_two_odd {calls : List UpdateCall} (heven : (digits calls).length % 2 = 0)
    (h : ¬ ∀ call ∈ calls, ¬ IsOdd call) :
    ∃ pre first mid second post, calls = pre ++ first :: (mid ++ second :: post) ∧
      (∀ call ∈ pre, ¬ IsOdd call) ∧ (∀ call ∈ mid, ¬ IsOdd call) ∧ IsOdd first ∧
      IsOdd second := by
  obtain ⟨pre, first, rest, rfl, hpre, hfirst⟩ := exists_odd h
  have hrest : ¬ ∀ call ∈ rest, ¬ IsOdd call := by
    intro hr
    have h1 := digits_even hpre
    have h2 := length_odd hfirst
    have h3 := digits_even hr
    rw [digits_append, digits_cons, List.length_append, List.length_append] at heven
    omega
  obtain ⟨mid, second, post, rfl, hmid, hsecond⟩ := exists_odd hrest
  exact ⟨pre, first, mid, second, post, rfl, hpre, hmid, hfirst, hsecond⟩

theorem decodesHex_of_passes {evp : Evp Ctx} {cipher : Decipher Ctx} {calls : List UpdateCall}
    {sent carry : Bytes} (h : Passes evp cipher calls sent carry)
    (hs : ∀ c ∈ sent, IsHexDigit c) :
    DecodesHex evp cipher calls ↔ ofHex sent = ofHex (digits calls) := by
  constructor
  · intro hd
    rw [← hexDecode_eq hs, ← h.given, hd.given]
  · intro he
    exact ⟨by rw [h.given, hexDecode_eq hs, he], h.untouched⟩

section
variable (evp : Evp Ctx) {cipher : Decipher Ctx} (hcarry : cipher.carry = [])
  {pre mid post : List UpdateCall} {first second : UpdateCall}
  (hhex : ∀ call ∈ pre ++ first :: (mid ++ second :: post), call.input = some .hex)
  (hdigits : ∀ c ∈ digits (pre ++ first :: (mid ++ second :: post)), IsHexDigit c)
  (hpre : ∀ call ∈ pre, ¬ IsOdd call) (hmid : ∀ call ∈ mid, ¬ IsOdd call)
  (hfirst : IsOdd first) (hsecond : IsOdd second)
include hcarry hhex hdigits hpre hmid hfirst hsecond

/-- The second odd chunk uses the carry up, and it is sent once more with what follows. -/
theorem decodesHex_two_iff {s : JSString} (hstr : first.chunk = .str s)
    (hpost : ∀ call ∈ post, ¬ IsOdd call) :
    DecodesHex evp cipher (pre ++ first :: (mid ++ second :: post)) ↔
      ∃ d, (digits (pre ++ first :: mid)).getLast? = some d ∧
        ∀ e ∈ digits post, digitValue e = digitValue d := by
  have hcalls : pre ++ first :: (mid ++ second :: post) =
      (pre ++ ([first] ++ (mid ++ [second]))) ++ post := by simp
  have hhex' : ∀ call ∈ pre ++ first :: (mid ++ [second]), call.input = some .hex :=
    fun c hc => hhex c (by simp at hc ⊢; tauto)
  obtain ⟨d, hd, htwo⟩ := passes_two evp hcarry hhex' hpre hmid hfirst hsecond hstr
  obtain ⟨sent, x, hx, hlate⟩ := passes_late evp post
    (fun c hc => hhex c (by simp [hc])) htwo.left hpost
  have hall := htwo.append hlate
  rw [← hcalls] at hall
  have hsplit : digits (pre ++ first :: (mid ++ second :: post)) =
      digits (pre ++ first :: (mid ++ [second])) ++ digits post := by
    rw [← digits_append]
    simp
  have hdmem : d ∈ digits (pre ++ first :: (mid ++ second :: post)) := by
    rw [← List.cons_append, ← List.append_assoc, digits_append]
    exact List.mem_append_left _ (List.mem_of_getLast? hd)
  have hsent : ∀ c ∈ digits (pre ++ first :: (mid ++ [second])) ++ sent, IsHexDigit c := by
    intro c hc
    rcases List.mem_append.mp hc with hc | hc
    · exact hdigits c (by rw [hsplit]; exact List.mem_append_left _ hc)
    · have hmem : c ∈ d :: digits post := by
        rw [← hx]
        exact List.mem_append_left _ hc
      rcases List.mem_cons.mp hmem with rfl | hc
      · exact hdigits c hdmem
      · exact hdigits c (by rw [hsplit]; exact List.mem_append_right _ hc)
  have hlen := congrArg List.length hx
  simp only [List.length_append, List.length_cons, List.length_nil] at hlen
  rw [decodesHex_of_passes hall hsent,
    ofHex_inj hsent hdigits (by rw [hsplit, List.length_append, List.length_append]; omega)
      hall.even, hsplit, List.map_append, List.map_append, List.append_cancel_left_eq,
    map_shift_iff hx]
  constructor
  · intro h
    exact ⟨d, hd, h⟩
  · rintro ⟨d', hd', h⟩
    rw [hd, Option.some.injEq] at hd'
    rwa [hd']

omit hdigits in
/-- A third odd chunk makes more digits be sent than there are. -/
theorem not_decodesHex_more {s : JSString} (hstr : first.chunk = .str s)
    (hpost : ¬ ∀ call ∈ post, ¬ IsOdd call) :
    ¬ DecodesHex evp cipher (pre ++ first :: (mid ++ second :: post)) := by
  have hcalls : pre ++ first :: (mid ++ second :: post) =
      (pre ++ ([first] ++ (mid ++ [second]))) ++ post := by simp
  have hhex' : ∀ call ∈ pre ++ first :: (mid ++ [second]), call.input = some .hex :=
    fun c hc => hhex c (by simp at hc ⊢; tauto)
  obtain ⟨d, -, htwo⟩ := passes_two evp hcarry hhex' hpre hmid hfirst hsecond hstr
  obtain ⟨sent, carry, hlate, hlen⟩ := passes_length evp post
    (fun c hc => hhex c (by simp [hc])) ⟨d, htwo.left⟩
  have hpos : 0 < (post.filter IsOdd).length := by
    obtain ⟨call, hmem, hodd⟩ : ∃ call ∈ post, IsOdd call := by simpa using hpost
    exact List.length_pos_of_mem (List.mem_filter.mpr ⟨hmem, by simpa using hodd⟩)
  have hall := htwo.append hlate
  rw [← hcalls] at hall
  intro h
  have hgiven := congrArg List.length (hall.given.symm.trans h.given)
  have hsplit : digits (pre ++ first :: (mid ++ second :: post)) =
      digits (pre ++ first :: (mid ++ [second])) ++ digits post := by
    rw [← digits_append]
    simp
  have h2 := htwo.even
  have h3 := hlate.even
  rw [length_ofHex, length_hexDecode, hsplit, List.length_append, List.length_append] at hgiven
  omega

omit hmid hsecond in
/-- The last digit of an odd Buffer is overwritten. -/
theorem not_decodesHex_buffer {b : Bytes} (hbuf : first.chunk = .buffer b) :
    ¬ DecodesHex evp cipher (pre ++ first :: (mid ++ second :: post)) := by
  intro h
  have hsame := h.untouched
  have heven := passes_even evp (fun c hc => hhex c (by simp [hc])) hcarry hpre
  rw [decipherUpdates_append, List.map_append, List.map_append] at hsame
  have hrest := (List.append_inj hsame (by rw [heven.untouched])).2
  simp only [decipherUpdates, List.map_cons, List.cons.injEq] at hrest
  have hlen := length_odd hfirst
  obtain ⟨body, x, hbody⟩ := exists_last hlen
  have hlenb := congrArg List.length hbody
  simp only [List.length_append, List.length_cons, List.length_nil] at hlenb
  have hcut : (decipherUpdates evp cipher pre).2.carry ++ first.chunk.encode .binary =
      body ++ [x] := by
    rw [heven.left]
    exact hbody
  have hin := hexInput_odd hcut (by omega)
  have hx : x ≠ 0 := by
    rintro rfl
    have hdigit := hdigits 0 (by rw [digits_append, digits_cons, hbody]; simp)
    exact absurd hdigit (by decide)
  apply hin.2.2.2.2 heven.left b hbuf hx
  rw [← (decipherUpdate_hex evp _ (hhex first (by simp))).2.1]
  exact hrest.1

end

/-- Hex digits, cut into any chunks, are decoded and the Buffers stay as they are exactly when
the carry is never needed, or is needed once and happens to be right afterwards. -/
theorem decodesHex_iff (evp : Evp Ctx) (ctx : Ctx) (memory : UInt8) (calls : List UpdateCall)
    (hhex : ∀ call ∈ calls, call.input = some .hex)
    (hdigits : ∀ c ∈ digits calls, IsHexDigit c) (heven : (digits calls).length % 2 = 0) :
    DecodesHex evp (decipherInit ctx memory) calls ↔ CarryFits calls := by
  have hcarry : (decipherInit ctx memory).carry = [] := rfl
  by_cases hall : ∀ call ∈ calls, ¬ IsOdd call
  · have hpass := passes_even evp hhex hcarry hall
    rw [decodesHex_of_passes hpass hdigits]
    exact ⟨fun _ => Or.inl hall, fun _ => rfl⟩
  · constructor
    · intro h
      obtain ⟨pre, first, mid, second, post, rfl, hpre, hmid, hfirst, hsecond⟩ :=
        exists_two_odd heven hall
      cases hchunk : first.chunk with
      | buffer b =>
        exact absurd h (not_decodesHex_buffer evp hcarry hhex hdigits hpre hfirst hchunk)
      | str s =>
        by_cases hpost : ∀ call ∈ post, ¬ IsOdd call
        · right
          refine ⟨pre, first, mid, second, post, s, rfl, ?_, hfirst, hsecond, hchunk,
            (decodesHex_two_iff evp hcarry hhex hdigits hpre hmid hfirst hsecond hchunk hpost).mp h⟩
          intro c hc
          simp only [List.mem_append] at hc
          rcases hc with (hc | hc) | hc
          · exact hpre c hc
          · exact hmid c hc
          · exact hpost c hc
        · exact absurd h (not_decodesHex_more evp hcarry hhex hpre hmid hfirst hsecond
            hchunk hpost)
    · rintro (h | ⟨pre, first, mid, second, post, s, rfl, hevens, hfirst, hsecond, hstr, h⟩)
      · exact absurd h hall
      · exact (decodesHex_two_iff evp hcarry hhex hdigits (fun c hc => hevens c (by simp [hc]))
          (fun c hc => hevens c (by simp [hc])) hfirst hsecond hstr
          (fun c hc => hevens c (by simp [hc]))).mpr h

/-- An `update` with a string of hex digits. -/
def hexCall (s : String) : UpdateCall := ⟨.str (js s), some .hex, none, fun _ => 0⟩

theorem decodesHex_iff_two :
    DecodesHex streamCipher (decipherInit [] 0) [hexCall "6", hexCall "1"] ↔
      CarryFits [hexCall "6", hexCall "1"] :=
  decodesHex_iff streamCipher [] 0 _ (by simp [hexCall]) (by decide +kernel) (by decide)

/-- The digits 6162 as three strings. -/
theorem not_decodesHex_three :
    (∀ c ∈ digits [hexCall "6", hexCall "1", hexCall "62"], IsHexDigit c) ∧
      (digits [hexCall "6", hexCall "1", hexCall "62"]).length % 2 = 0 ∧
      ¬ DecodesHex streamCipher (decipherInit [] 0) [hexCall "6", hexCall "1", hexCall "62"] := by
  refine ⟨by decide +kernel, by decide, ?_⟩
  intro h
  exact absurd h.given (by decide +kernel)

end NodeJS.Crypto
