import NodeJS.Buffer.Encoding

/-! `Decipher` of the crypto binding: what an `update` hands to the cipher library and what it
makes of the bytes that come back. The library is a parameter. -/
namespace NodeJS.Crypto

/-- What is used of the library: the bytes that an update and the end of a context give, and
its reader of base64. -/
structure Evp (Ctx : Type) where
  cipherUpdate : Ctx → Bytes → Ctx × Bytes
  cipherFinal : Ctx → Bytes
  unbase64 : Bytes → Bytes

/-- What `strcasecmp` finds the second argument of `update` to be. -/
inductive InputEncoding
  | hex
  | base64
  | binary
  | other
  deriving DecidableEq, Repr

structure Decipher (Ctx : Type) where
  ctx : Ctx
  initialised : Bool
  incompleteUtf8 : Option Bytes
  incompleteHex : UInt8
  incompleteHexFlag : Bool
  deriving DecidableEq

/-- `DecipherInit` and `DecipherInitIv` with a good key. `incomplete_hex` keeps what it was. -/
def decipherInit {Ctx : Type} (ctx : Ctx) (memory : UInt8) : Decipher Ctx :=
  ⟨ctx, true, none, memory, false⟩

/-- `hex2i`, of which only the low byte is ever used. -/
def hex2i (c : UInt8) : UInt8 :=
  if c ≤ 0x39 then c - 0x30 else if c ≤ 0x5A then c - 0x41 + 10 else c - 0x61 + 10

def hexDecode : Bytes → Bytes
  | a :: b :: rest => (hex2i a <<< 4 ||| hex2i b) :: hexDecode rest
  | _ => []

/-- The loop of `LengthWithoutIncompleteUtf8` on the bytes before `answer`, last one first. -/
def lengthScan : (seen answer : ℕ) → (reversed : Bytes) → ℕ
  | _, _, [] => 0
  | seen, answer, c :: reversed =>
    if c &&& 0x80 = 0x00 then answer
    else if c &&& 0xC0 = 0x80 then lengthScan (seen + 1) (answer - 1) reversed
    else if c &&& 0xE0 = 0xC0 then (if seen ≥ 1 then answer + 2 else answer - 1)
    else if c &&& 0xF0 = 0xE0 then (if seen ≥ 2 then answer + 3 else answer - 1)
    else if c &&& 0xF8 = 0xF0 then (if seen ≥ 3 then answer + 4 else answer - 1)
    else answer

def lengthWithoutIncompleteUtf8 (buffer : Bytes) : ℕ :=
  lengthScan 0 buffer.length buffer.reverse

/-- `len` bytes from `out` on; `past` is what the memory holds behind it. -/
def readMemory (out : Bytes) (past : ℕ → UInt8) (len : ℕ) : Bytes :=
  (List.range len).map fun i => out.getD i (past i)

/-- The branch for hex: the bytes for the library, the argument after the call, the carry. -/
def hexInput {Ctx : Type} (cipher : Decipher Ctx) (chunk : Chunk) :
    Bytes × Chunk × Decipher Ctx :=
  let data := chunk.encode .binary
  let buf := if cipher.incompleteHexFlag then cipher.incompleteHex :: data else data
  if buf.length % 2 ≠ 0 then
    let len := buf.length - 1
    let chunk := match chunk with
      | .buffer b => if cipher.incompleteHexFlag then chunk else .buffer (b.set len 0)
      | .str _ => chunk
    let cipher := { cipher with incompleteHex := buf.getD len 0, incompleteHexFlag := true }
    (hexDecode (buf.take len), chunk, cipher)
  else (hexDecode buf, chunk, cipher)

/-- What `update` does with its first two arguments. -/
def decipherInput {Ctx : Type} (evp : Evp Ctx) (cipher : Decipher Ctx) (chunk : Chunk) :
    Option InputEncoding → Bytes × Chunk × Decipher Ctx
  | some .hex => hexInput cipher chunk
  | some .base64 => (evp.unbase64 (chunk.encode .binary), chunk, cipher)
  | _ => (chunk.encode .binary, chunk, cipher)

/-- What `update` makes of `out`: the bytes given to `Encode`, the string and the overhang.
The third argument is `none` where it is not a string. -/
def decipherOutput {Ctx : Type} (past : ℕ → UInt8) (cipher : Decipher Ctx) (out : Bytes)
    (encoding : Option Encoding) : Bytes × JSString × Decipher Ctx :=
  if out.length = 0 then ([], [], cipher)
  else match encoding with
    | some .utf8 =>
      let out := cipher.incompleteUtf8.getD [] ++ out
      let utf8Len := lengthWithoutIncompleteUtf8 out
      let incomplete := if utf8Len < out.length then some (out.drop utf8Len) else none
      let read := readMemory out past utf8Len
      (read, encodeString read .utf8, { cipher with incompleteUtf8 := incomplete })
    | some encoding => (out, encodeString out encoding, cipher)
    | none => (out, encodeString out .binary, cipher)

/-- The arguments of an `update`, and what lies in memory behind its output. -/
structure UpdateCall where
  chunk : Chunk
  input : Option InputEncoding
  output : Option Encoding
  past : ℕ → UInt8

/-- An `update` that is over. -/
structure Updated (Ctx : Type) where
  cipher : Decipher Ctx
  chunk : Chunk
  given : Bytes
  out : Bytes
  read : Bytes
  result : Option JSString

/-- `Decipher::DecipherUpdate`; `none` as the result stands for the TypeError. -/
def decipherUpdate {Ctx : Type} (evp : Evp Ctx) (cipher : Decipher Ctx) (call : UpdateCall) :
    Updated Ctx :=
  let (given, chunk, cipher) := decipherInput evp cipher call.chunk call.input
  if cipher.initialised then
    let (ctx, out) := evp.cipherUpdate cipher.ctx given
    let (read, string, cipher) :=
      decipherOutput call.past { cipher with ctx := ctx } out call.output
    ⟨cipher, chunk, given, out, read, some string⟩
  else ⟨cipher, chunk, given, [], [], none⟩

/-- `Decipher::DecipherFinal`: the bytes of the library, the string and the object after it. -/
def decipherFinal {Ctx : Type} (evp : Evp Ctx) (cipher : Decipher Ctx)
    (encoding : Option Encoding) : Bytes × JSString × Decipher Ctx :=
  if cipher.initialised then
    let out := evp.cipherFinal cipher.ctx
    let cipher := { cipher with initialised := false }
    if out.length = 0 then (out, [], cipher)
    else match encoding with
      | some .utf8 => match cipher.incompleteUtf8 with
        | some held => (out, encodeString (held ++ out) .utf8, { cipher with incompleteUtf8 := none })
        | none => (out, encodeString out .utf8, cipher)
      | some encoding => (out, encodeString out encoding, cipher)
      | none => (out, encodeString out .binary, cipher)
  else ([], [], cipher)

def decipherUpdates {Ctx : Type} (evp : Evp Ctx) :
    Decipher Ctx → List UpdateCall → List (Updated Ctx) × Decipher Ctx
  | cipher, [] => ([], cipher)
  | cipher, call :: calls =>
    let done := decipherUpdate evp cipher call
    let (rest, cipher) := decipherUpdates evp done.cipher calls
    (done :: rest, cipher)

/-- A stream cipher whose context is its key stream. -/
def streamCipher : Evp Bytes where
  cipherUpdate := fun stream data => (stream.drop data.length, stream.zipWith (· ^^^ ·) data)
  cipherFinal := fun _ => []
  unbase64 := fun data => data

variable {Ctx : Type}

theorem decipherUpdates_append (evp : Evp Ctx) (cipher : Decipher Ctx) (a b : List UpdateCall) :
    decipherUpdates evp cipher (a ++ b) =
      ((decipherUpdates evp cipher a).1 ++
          (decipherUpdates evp (decipherUpdates evp cipher a).2 b).1,
        (decipherUpdates evp (decipherUpdates evp cipher a).2 b).2) := by
  induction a generalizing cipher with
  | nil => rfl
  | cons call a ih =>
    simp only [List.cons_append, decipherUpdates]
    rw [ih]

theorem decipherUpdates_snoc (evp : Evp Ctx) (cipher : Decipher Ctx) (a : List UpdateCall)
    (call : UpdateCall) :
    decipherUpdates evp cipher (a ++ [call]) =
      ((decipherUpdates evp cipher a).1 ++
          [decipherUpdate evp (decipherUpdates evp cipher a).2 call],
        (decipherUpdate evp (decipherUpdates evp cipher a).2 call).cipher) :=
  decipherUpdates_append evp cipher a [call]

end NodeJS.Crypto
