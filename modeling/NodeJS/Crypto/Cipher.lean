import NodeJS.Buffer.Base64Slice
import NodeJS.Crypto.Decipher

/-! `Cipher` of the crypto binding, and the base64 text that it hands out in pieces. The cipher
library and its writer of base64 are parameters. -/
namespace NodeJS.Crypto

/-- The encodings in which `DecodeWrite` reads a string. -/
inductive PlainEncoding
  | utf8
  | ascii
  | binary
  deriving DecidableEq, Repr

def PlainEncoding.encoding : PlainEncoding → Encoding
  | .utf8 => .utf8
  | .ascii => .ascii
  | .binary => .binary

/-- What `strcasecmp` finds the last argument of `update` and `final` to be. -/
inductive OutputEncoding
  | hex
  | base64
  | binary
  | other
  deriving DecidableEq, Repr

structure Cipher (Ctx : Type) where
  ctx : Ctx
  initialised : Bool
  incompleteBase64 : Option Bytes

/-- `CipherInit` and `CipherInitIv` with a good key. -/
def cipherInit {Ctx : Type} (ctx : Ctx) : Cipher Ctx := ⟨ctx, true, none⟩

/-- `%02x` -/
def hexDigits (b : UInt8) : Bytes :=
  let digit (d : UInt8) : UInt8 := if d < 10 then 0x30 + d else 0x61 + (d - 10)
  [digit (b >>> 4), digit (b &&& 0x0F)]

def hexEncode (bytes : Bytes) : Bytes := bytes.flatMap hexDigits

inductive Returned
  | string (s : JSString)
  /-- An empty handle, after the message about the encoding. -/
  | undefined
  /-- The TypeError of an update that is not possible. -/
  | throws
  deriving DecidableEq

section
variable {Ctx : Type} (evp : Evp Ctx) (base64 : Bytes → Bytes)

/-- The bytes to write as base64, and what is kept for the next call. -/
def trimBase64 (out : Bytes) : Bytes × Option Bytes :=
  if out.length % 3 ≠ 0 then
    let len := out.length - out.length % 3
    (out.take len, some (out.drop len))
  else (out, none)

/-- What `update` makes of `out`. The encoding is `none` where it is not a string. -/
def cipherOutput (cipher : Cipher Ctx) (out : Bytes) (encoding : Option OutputEncoding) :
    Returned × Cipher Ctx :=
  if out.length = 0 then (.string [], cipher)
  else match encoding with
    | none => (.string (encodeString out .binary), cipher)
    | some .hex => (.string (encodeString (hexEncode out) .binary), cipher)
    | some .base64 =>
      let (out, incomplete) := trimBase64 (cipher.incompleteBase64.getD [] ++ out)
      (.string (encodeString (base64 out) .binary), { cipher with incompleteBase64 := incomplete })
    | some .binary => (.string (encodeString out .binary), cipher)
    | some .other => (.undefined, cipher)

/-- The arguments of an `update`. -/
structure CipherCall where
  chunk : Chunk
  input : PlainEncoding
  output : Option OutputEncoding

def cipherUpdate (cipher : Cipher Ctx) (call : CipherCall) : Returned × Cipher Ctx :=
  if cipher.initialised then
    let (ctx, out) := evp.cipherUpdate cipher.ctx (call.chunk.encode call.input.encoding)
    cipherOutput base64 { cipher with ctx := ctx } out call.output
  else (.throws, cipher)

def cipherFinal (cipher : Cipher Ctx) (encoding : Option OutputEncoding) :
    Returned × Cipher Ctx :=
  if cipher.initialised then
    let out := evp.cipherFinal cipher.ctx
    let cipher := { cipher with initialised := false }
    if out.length = 0 then (.string [], cipher)
    else match encoding with
      | none => (.string (encodeString out .binary), cipher)
      | some .hex => (.string (encodeString (hexEncode out) .binary), cipher)
      | some .base64 =>
        let complete := cipher.incompleteBase64.getD [] ++ out
        (.string (encodeString (base64 complete) .binary),
          { cipher with incompleteBase64 := none })
      | some .binary => (.string (encodeString out .binary), cipher)
      | some .other => (.undefined, cipher)
  else (.string [], cipher)

/-- Successive updates: what they return and the object after the last one. -/
def cipherUpdates : Cipher Ctx → List CipherCall → List Returned × Cipher Ctx
  | cipher, [] => ([], cipher)
  | cipher, call :: calls =>
    let (returned, cipher) := cipherUpdate evp base64 cipher call
    let (rest, cipher) := cipherUpdates cipher calls
    (returned :: rest, cipher)

end

/-! ### Base64 in pieces -/

theorem encodeDigits_append {a : Bytes} (h : 3 ∣ a.length) (b : Bytes) :
    Base64.encodeDigits (a ++ b) = Base64.encodeDigits a ++ Base64.encodeDigits b := by
  induction a using Base64.encodeDigits.induct with
  | case1 x y z rest ih =>
    have hrest : 3 ∣ rest.length := by
      simp only [List.length_cons] at h
      omega
    simp only [List.cons_append, Base64.encodeDigits, ih hrest]
  | case2 x y => simp at h
  | case3 x => simp at h
  | case4 => rfl

theorem encodeDigits_eq_nil {b : Bytes} (h : Base64.encodeDigits b = []) : b = [] := by
  have hlength := congrArg List.length h
  rw [Base64.length_encodeDigits, List.length_nil, Base64.outLen] at hlength
  exact List.length_eq_zero_iff.mp (by omega)

/-- Whole groups of three bytes are written, and fewer than three bytes are kept. -/
theorem trimBase64_spec (out : Bytes) :
    (trimBase64 out).1 ++ (trimBase64 out).2.getD [] = out ∧ 3 ∣ (trimBase64 out).1.length ∧
      ((trimBase64 out).2.getD []).length < 3 := by
  unfold trimBase64
  dsimp only
  split_ifs with hrest
  · have htake : (out.take (out.length - out.length % 3)).length =
        out.length - out.length % 3 := by
      rw [List.length_take]
      omega
    refine ⟨List.take_append_drop _ out, ?_, ?_⟩
    · rw [htake]
      omega
    · rw [Option.getD_some, List.length_drop]
      omega
  · have hthree : 3 ∣ out.length := by omega
    exact ⟨List.append_nil out, hthree, by simp⟩

theorem encodeString_append (a b : Bytes) :
    encodeString (a ++ b) .binary = encodeString a .binary ++ encodeString b .binary :=
  List.map_append

/-- The pieces that the library itself returns for the updates, and the one for `final`. -/
def pieces {Ctx : Type} (evp : Evp Ctx) : Ctx → List CipherCall → List Bytes × Bytes
  | ctx, [] => ([], evp.cipherFinal ctx)
  | ctx, call :: calls =>
    let (ctx, out) := evp.cipherUpdate ctx (call.chunk.encode call.input.encoding)
    let (outs, last) := pieces evp ctx calls
    (out :: outs, last)

/-- The strings returned by the updates and by `final` are, one after the other, the base64 of
all the pieces. -/
def WritesBase64 {Ctx : Type} (evp : Evp Ctx) (base64 : Bytes → Bytes) (ctx : Ctx)
    (calls : List CipherCall) : Prop :=
  let (returned, cipher) := cipherUpdates evp base64 (cipherInit ctx) calls
  let (final, _) := cipherFinal evp base64 cipher (some .base64)
  let (outs, last) := pieces evp ctx calls
  ∃ strings : List JSString, returned ++ [final] = strings.map .string ∧
    strings.flatten = encodeString (Base64.encodeDigits (outs.flatten ++ last)) .binary

section
variable {Ctx : Type} (evp : Evp Ctx) {base64 : Bytes → Bytes} {cipher : Cipher Ctx}

/-- `update` returns the base64 of whole groups, and keeps the rest of what there is so far. -/
theorem cipherUpdate_base64 (hbase64 : ∀ b, base64 b = Base64.encodeDigits b)
    (hinit : cipher.initialised = true) {call : CipherCall} (hcall : call.output = some .base64)
    (hcarry : (cipher.incompleteBase64.getD []).length < 3) :
    ∃ (out t : Bytes) (cipher' : Cipher Ctx),
      evp.cipherUpdate cipher.ctx (call.chunk.encode call.input.encoding) = (cipher'.ctx, out) ∧
      cipherUpdate evp base64 cipher call =
        (.string (encodeString (Base64.encodeDigits t) .binary), cipher') ∧
      cipher'.initialised = true ∧ (cipher'.incompleteBase64.getD []).length < 3 ∧
      cipher.incompleteBase64.getD [] ++ out = t ++ cipher'.incompleteBase64.getD [] ∧
      3 ∣ t.length := by
  unfold cipherUpdate
  rw [if_pos hinit]
  generalize evp.cipherUpdate cipher.ctx (call.chunk.encode call.input.encoding) = given
  obtain ⟨ctx, out⟩ := given
  dsimp only
  unfold cipherOutput
  split_ifs with hout
  · obtain rfl := List.length_eq_zero_iff.mp hout
    exact ⟨[], [], _, rfl, rfl, hinit, hcarry, List.append_nil _, dvd_zero 3⟩
  · rw [hcall]
    dsimp only
    rw [hbase64]
    obtain ⟨happend, hthree, hless⟩ := trimBase64_spec (cipher.incompleteBase64.getD [] ++ out)
    exact ⟨out, _, _, rfl, rfl, hinit, hless, happend.symm, hthree⟩

/-- What the updates return is the base64 of all but the bytes that are kept. -/
theorem cipherUpdates_base64 (hbase64 : ∀ b, base64 b = Base64.encodeDigits b)
    (calls : List CipherCall) (hcalls : ∀ call ∈ calls, call.output = some .base64)
    (hinit : cipher.initialised = true)
    (hcarry : (cipher.incompleteBase64.getD []).length < 3) :
    ∃ (outs : List Bytes) (strings : List JSString) (t : Bytes) (cipher' : Cipher Ctx),
      pieces evp cipher.ctx calls = (outs, evp.cipherFinal cipher'.ctx) ∧
      cipherUpdates evp base64 cipher calls = (strings.map .string, cipher') ∧
      strings.flatten = encodeString (Base64.encodeDigits t) .binary ∧
      cipher'.initialised = true ∧ (cipher'.incompleteBase64.getD []).length < 3 ∧
      cipher.incompleteBase64.getD [] ++ outs.flatten = t ++ cipher'.incompleteBase64.getD [] ∧
      3 ∣ t.length := by
  induction calls generalizing cipher with
  | nil =>
    refine ⟨[], [], [], cipher, rfl, rfl, rfl, hinit, hcarry, ?_, dvd_zero 3⟩
    exact List.append_nil _
  | cons call calls ih =>
    obtain ⟨hcall, hcalls⟩ := List.forall_mem_cons.mp hcalls
    obtain ⟨out, t, cipher₁, hevp, hupdate, hinit₁, hcarry₁, hbytes, hthree⟩ :=
      cipherUpdate_base64 evp hbase64 hinit hcall hcarry
    obtain ⟨outs, strings, t', cipher', hpieces, hupdates, hstrings, hinit', hcarry', hbytes',
      hthree'⟩ := ih hcalls hinit₁ hcarry₁
    refine ⟨out :: outs, encodeString (Base64.encodeDigits t) .binary :: strings, t ++ t', cipher',
      ?_, ?_, ?_, hinit', hcarry', ?_, ?_⟩
    · unfold pieces
      rw [hevp]
      dsimp only
      rw [hpieces]
    · unfold cipherUpdates
      rw [hupdate]
      dsimp only
      rw [hupdates]
      rfl
    · rw [List.flatten_cons, hstrings, encodeDigits_append hthree, encodeString_append]
    · rw [List.flatten_cons, ← List.append_assoc, hbytes, List.append_assoc, hbytes',
        List.append_assoc]
    · rw [List.length_append]
      exact Nat.dvd_add hthree hthree'

end

theorem exists_strings (strings : List JSString) (x y : JSString) :
    (∃ strings' : List JSString, strings.map Returned.string ++ [.string x] =
        strings'.map Returned.string ∧ strings'.flatten = y) ↔ strings.flatten ++ x = y := by
  have hmap : strings.map Returned.string ++ [.string x] = (strings ++ [x]).map .string := by simp
  have hflatten : (strings ++ [x]).flatten = strings.flatten ++ x := by simp
  rw [hmap, ← hflatten]
  constructor
  · rintro ⟨strings', heq, rfl⟩
    rw [List.map_injective_iff.mpr (fun _ _ h => Returned.string.inj h) heq]
  · exact fun h => ⟨_, rfl, h⟩

/-- Nothing is lost exactly when the library returns something from `final`, or has returned a
number of bytes that three divides before. -/
theorem writesBase64_iff {Ctx : Type} (evp : Evp Ctx) (base64 : Bytes → Bytes)
    (hbase64 : ∀ b, base64 b = Base64.encodeDigits b) (ctx : Ctx) (calls : List CipherCall)
    (hcalls : ∀ call ∈ calls, call.output = some .base64) :
    WritesBase64 evp base64 ctx calls ↔
      (pieces evp ctx calls).2 ≠ [] ∨
        3 ∣ (pieces evp ctx calls).1.flatten.length := by
  have hnew : (cipherInit ctx).initialised = true := rfl
  obtain ⟨outs, strings, t, cipher, hpieces, hupdates, hstrings, hinit, hcarry, hbytes, hthree⟩ :=
    cipherUpdates_base64 evp hbase64 calls hcalls hnew (Nat.zero_lt_succ 2)
  have houts : outs.flatten = t ++ cipher.incompleteBase64.getD [] := hbytes
  have hpieces : pieces evp ctx calls = (outs, evp.cipherFinal cipher.ctx) := hpieces
  unfold WritesBase64
  rw [hpieces, hupdates]
  dsimp only
  unfold cipherFinal
  rw [if_pos hinit]
  dsimp only
  split_ifs with hlast
  · obtain hlast := List.length_eq_zero_iff.mp hlast
    dsimp only
    rw [exists_strings, hlast, List.append_nil, List.append_nil, hstrings, houts,
      encodeDigits_append hthree, encodeString_append, List.self_eq_append_right,
      List.length_append, Nat.dvd_add_right hthree]
    constructor
    · intro hnil
      rw [encodeDigits_eq_nil (List.map_eq_nil_iff.mp hnil)]
      exact .inr (dvd_zero 3)
    · rintro (hne | hdvd)
      · exact absurd rfl hne
      · rw [List.length_eq_zero_iff.mp (Nat.eq_zero_of_dvd_of_lt hdvd hcarry)]
        rfl
  · dsimp only
    rw [exists_strings, hbase64, hstrings, houts, List.append_assoc,
      encodeDigits_append hthree, encodeString_append]
    exact ⟨fun _ => .inl fun hnil => hlast (congrArg List.length hnil), fun _ => rfl⟩

/-- An `update` with a Buffer. -/
def base64Call (data : Bytes) : CipherCall := ⟨.buffer data, .binary, some .base64⟩

theorem writesBase64_iff_two :
    WritesBase64 streamCipher Base64.encodeDigits [0x5A, 0x3C, 0x77]
        [base64Call [0x61], base64Call [], base64Call [0x62, 0x63]] ↔
      (pieces streamCipher [0x5A, 0x3C, 0x77]
          [base64Call [0x61], base64Call [], base64Call [0x62, 0x63]]).2 ≠ [] ∨
        3 ∣ (pieces streamCipher [0x5A, 0x3C, 0x77]
          [base64Call [0x61], base64Call [], base64Call [0x62, 0x63]]).1.flatten.length :=
  writesBase64_iff streamCipher Base64.encodeDigits (fun _ => rfl) [0x5A, 0x3C, 0x77] _
    (by simp [base64Call])

/-- A stream cipher has nothing to return from `final`. -/
theorem not_writesBase64_one :
    ¬ WritesBase64 streamCipher Base64.encodeDigits [0x5A] [base64Call [0x61]] := by
  rintro ⟨strings, hreturned, hstrings⟩
  have hempty : strings.map Returned.string = [.string [], .string []] := by
    rw [← hreturned]
    decide +kernel
  have hnil : strings = [[], []] :=
    List.map_injective_iff.mpr (fun _ _ h => Returned.string.inj h) hempty
  rw [hnil] at hstrings
  exact absurd hstrings (by decide +kernel)

end NodeJS.Crypto
