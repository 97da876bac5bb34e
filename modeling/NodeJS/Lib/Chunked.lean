import Mathlib.Data.Nat.Digits.Defs

/-! The chunked transfer coding of HTTP/1.1: a reader for it, and what it makes of chunks that
are written one after the other. -/
namespace Lib.Chunked

abbrev Octets := List UInt8

def crlf : Octets := [0x0d, 0x0a]

/-- The value of a `HEX` octet. -/
def hexValue (b : UInt8) : Option ℕ :=
  if 0x30 ≤ b ∧ b ≤ 0x39 then some (b.toNat - 0x30)
  else if 0x41 ≤ b ∧ b ≤ 0x46 then some (b.toNat - 0x41 + 10)
  else if 0x61 ≤ b ∧ b ≤ 0x66 then some (b.toNat - 0x61 + 10)
  else none

def afterLine : Octets → Option Octets
  | 0x0d :: 0x0a :: rest => some rest
  | _ :: rest => afterLine rest
  | [] => none

/-- `chunk-size [ chunk-extension ] CRLF`, after digits of the given value. `any` says that there
was a digit. -/
def sizeLine (any : Bool) (size : ℕ) : Octets → Option (ℕ × Octets)
  | [] => none
  | b :: rest =>
    match hexValue b with
    | some d => sizeLine true (size * 16 + d) rest
    | none =>
      if any then
        if b = 0x3b then (afterLine rest).map fun rest => (size, rest)
        else if (b :: rest).take 2 = crlf then some (size, rest.drop 1)
        else none
      else none

/-- The chunks up to the last one, which has size zero: their data, and what follows the line
of the last chunk. Every round of the reader takes fuel. -/
def readChunks : ℕ → Octets → Option (Octets × Octets)
  | 0, _ => none
  | fuel + 1, b =>
    match sizeLine false 0 b with
    | none => none
    | some (size, rest) =>
      if size = 0 then some ([], rest)
      else if (rest.drop size).take 2 = crlf then
        (readChunks fuel (rest.drop (size + 2))).map fun r => (rest.take size ++ r.1, r.2)
      else none

def decode (b : Octets) : Option (Octets × Octets) := readChunks (b.length + 1) b

/-! ### Writing -/

def hexDigits (n : ℕ) : List ℕ := if n = 0 then [0] else (Nat.digits 16 n).reverse

def hexOctet (d : ℕ) : UInt8 := (if d < 10 then d + 0x30 else d - 10 + 0x61).toUInt8

def hexText (n : ℕ) : Octets := (hexDigits n).map hexOctet

/-- A chunk; one without data would be taken for the last one, and is left out. -/
def chunk (data : Octets) : Octets :=
  if data = [] then [] else hexText data.length ++ crlf ++ data ++ crlf

theorem hexDigits_lt {n d : ℕ} (h : d ∈ hexDigits n) : d < 16 := by
  unfold hexDigits at h
  split_ifs at h
  · rw [List.mem_singleton] at h
    omega
  · exact Nat.digits_lt_base (by norm_num) (List.mem_reverse.mp h)

theorem hexDigits_ne_nil (n : ℕ) : hexDigits n ≠ [] := by
  unfold hexDigits
  split_ifs with h
  · simp
  · simpa [Nat.digits_ne_nil_iff_ne_zero] using h

theorem hexDigits_value (n : ℕ) : (hexDigits n).foldl (fun size d => size * 16 + d) 0 = n := by
  unfold hexDigits
  split_ifs with h
  · simp [h]
  · rw [List.foldl_reverse]
    have hdigits := Nat.ofDigits_digits 16 n
    rw [Nat.ofDigits_eq_foldr] at hdigits
    conv_rhs => rw [← hdigits]
    congr 1
    funext d size
    simp only [Nat.cast_id]
    ring

theorem hexValue_hexOctet {d : ℕ} (h : d < 16) : hexValue (hexOctet d) = some d := by
  revert h
  revert d
  decide

theorem sizeLine_digits (any : Bool) (size : ℕ) {digits : List ℕ} (hd : ∀ d ∈ digits, d < 16)
    (hne : any = true ∨ digits ≠ []) (rest : Octets) :
    sizeLine any size (digits.map hexOctet ++ crlf ++ rest) =
      some (digits.foldl (fun size d => size * 16 + d) size, rest) := by
  induction digits generalizing any size with
  | nil =>
    have hany : any = true := hne.resolve_right fun h => h rfl
    subst hany
    rfl
  | cons d digits ih =>
    have hvalue := hexValue_hexOctet (hd d List.mem_cons_self)
    have hrest := ih true (size * 16 + d) (fun d hd' => hd d (List.mem_cons_of_mem _ hd'))
      (Or.inl rfl)
    simp only [List.map_cons, List.cons_append, sizeLine, hvalue]
    exact hrest

theorem sizeLine_hexText (n : ℕ) (rest : Octets) :
    sizeLine false 0 (hexText n ++ crlf ++ rest) = some (n, rest) := by
  have hline := sizeLine_digits false 0 (fun d => hexDigits_lt) (Or.inr (hexDigits_ne_nil n)) rest
  rw [hexDigits_value] at hline
  exact hline

/-- More fuel does not change what was read. -/
theorem readChunks_succ {fuel : ℕ} {b : Octets} {r : Octets × Octets}
    (h : readChunks fuel b = some r) : readChunks (fuel + 1) b = some r := by
  induction fuel generalizing b r with
  | zero => cases h
  | succ fuel ih =>
    rw [readChunks] at h ⊢
    split at h
    · cases h
    · next size rest hline =>
      split_ifs at h ⊢
      · exact h
      · obtain ⟨r', hr', rfl⟩ := Option.map_eq_some_iff.mp h
        rw [ih hr']
        rfl

theorem readChunks_add {fuel : ℕ} {b : Octets} {r : Octets × Octets}
    (h : readChunks fuel b = some r) (more : ℕ) : readChunks (fuel + more) b = some r := by
  induction more with
  | zero => exact h
  | succ more ih => exact readChunks_succ ih

theorem decode_last (rest : Octets) : decode (hexText 0 ++ crlf ++ rest) = some ([], rest) := by
  unfold decode
  rw [readChunks, sizeLine_hexText]
  rfl

theorem decode_chunk {b body rest : Octets} (data : Octets)
    (h : decode b = some (body, rest)) : decode (chunk data ++ b) = some (data ++ body, rest) := by
  unfold chunk
  split_ifs with hdata
  · rw [hdata]
    exact h
  · have hlen : data.length ≠ 0 := fun h => hdata (List.length_eq_zero_iff.mp h)
    unfold decode at h ⊢
    have hmore := readChunks_add h ((hexText data.length).length + data.length + 3)
    have hfuel : (hexText data.length ++ crlf ++ data ++ crlf ++ b).length =
        b.length + 1 + ((hexText data.length).length + data.length + 3) := by
      simp only [List.length_append, crlf, List.length_cons, List.length_nil]
      omega
    have hline := sizeLine_hexText data.length (data ++ (crlf ++ b))
    have hdrop : (data ++ (crlf ++ b)).drop (data.length + 2) = b := by
      rw [← List.drop_drop, List.drop_left]
      rfl
    rw [readChunks, hfuel]
    simp only [List.append_assoc] at hline ⊢
    rw [hline]
    dsimp only
    rw [if_neg hlen, List.drop_left, if_pos (by rfl), List.take_left, hdrop, hmore]
    rfl

/-- Chunks and the last chunk are read back, whatever follows. -/
theorem decode_chunks (chunks : List Octets) (rest : Octets) :
    decode (chunks.flatMap chunk ++ (hexText 0 ++ crlf ++ rest)) = some (chunks.flatten, rest) := by
  induction chunks with
  | nil => exact decode_last rest
  | cons data chunks ih =>
    rw [List.flatMap_cons, List.append_assoc, List.flatten_cons]
    exact decode_chunk data ih

end Lib.Chunked
