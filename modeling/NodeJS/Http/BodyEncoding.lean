import NodeJS.Buffer.ToString
import NodeJS.Http.Chunked

/-! Header, chunk sizes and data in one string: when the encoding of the data leaves the text
around it alone, on a message with a socket and on one that waits for it. -/
namespace NodeJS.Http

/-! ### Text and data in one string -/

/-- Base64 data of a text is shorter than the text: a line break is lost. -/
theorem length_alphabet_line (p : JSString) :
    (Base64.alphabet (asciiValue (p ++ CRLF))).length ≤ p.length := by
  have hle := Base64.length_alphabet_le (asciiValue p)
  have hcrlf : Base64.alphabet (asciiValue CRLF) = [] := by decide
  have hsplit : asciiValue (p ++ CRLF) = asciiValue p ++ asciiValue CRLF := List.map_append
  have hlen : (asciiValue p).length = p.length := List.length_map _
  rw [hsplit, Base64.alphabet_append, hcrlf, List.append_nil]
  omega

theorem length_encode_base64 (s : JSString) :
    (encode .base64 s).length = (Base64.alphabet (asciiValue s)).length * 3 / 4 :=
  Base64.length_decode _

theorem length_le_encode_utf8 (s : JSString) : s.length ≤ (encode .utf8 s).length := by
  induction s with
  | nil => exact Nat.zero_le _
  | cons c s ih =>
    have hc := unitBytes_length_pos (show Encoding.utf8 ≠ .base64 by decide) c
    rw [encode_eq_flatMap (by decide), List.flatMap_cons, List.length_append, List.length_cons]
    rw [encode_eq_flatMap (by decide)] at ih
    omega

/-- A text that ends a line, in two bytes a character. -/
theorem encode_ucs2_line (p : JSString) :
    encode .ucs2 (p ++ CRLF) = encode .ucs2 p ++ [0x0d, 0, 0x0a, 0] := by
  rw [encode_append (by decide)]
  rfl

theorem ascii_line (p : JSString) : ascii (p ++ CRLF) = ascii p ++ [0x0d, 0x0a] := by
  rw [ascii_append]
  rfl

theorem length_ucs2 (s : JSString) : (encode .ucs2 s).length = 2 * s.length := by
  rw [encode_eq_flatMap (by decide)]
  simp [List.length_flatMap, unitBytes, Nat.mul_comm]

/-- Every other byte of a text in UCS-2 is zero. -/
theorem encode_ucs2_odd {p : JSString} (hp : ∀ c ∈ p, c < 0x80) {i : ℕ} (hi : i < p.length) :
    (encode .ucs2 p)[2 * i + 1]? = some 0 := by
  induction p generalizing i with
  | nil => cases hi
  | cons c p ih =>
    have hc : highByte c = 0 := by
      have hlt : c.toNat < 0x80 := UInt16.lt_iff_toNat_lt.mp (hp c List.mem_cons_self)
      unfold highByte
      apply UInt8.toNat_inj.mp
      simp [UInt16.toNat_shiftRight]
      omega
    have hcons : encode .ucs2 (c :: p) = lowByte c :: highByte c :: encode .ucs2 p := rfl
    rw [hcons, hc]
    cases i with
    | zero => rfl
    | succ i =>
      rw [show 2 * (i + 1) + 1 = 2 * i + 1 + 1 + 1 by omega, List.getElem?_cons_succ,
        List.getElem?_cons_succ]
      exact ih (fun c hc => hp c (List.mem_cons_of_mem _ hc))
        (Nat.lt_of_succ_lt_succ hi)

/-- One of the two characters that end a line stands where UCS-2 has a zero. -/
theorem encode_ucs2_ne {p : JSString} (hp : ∀ c ∈ p ++ CRLF, c < 0x80) (x y : Bytes) :
    encode .ucs2 (p ++ CRLF) ++ x ≠ ascii (p ++ CRLF) ++ y := by
  intro h
  have hlen : (p ++ CRLF).length = p.length + 2 := List.length_append
  have hodd : ∀ i, i < p.length + 2 → (ascii (p ++ CRLF) ++ y)[2 * i + 1]? = some 0 := by
    intro i hi
    rw [← h, List.getElem?_append_left (by rw [length_ucs2]; omega)]
    exact encode_ucs2_odd hp (by omega)
  rw [ascii_line, List.append_assoc] at hodd
  rcases Nat.even_or_odd' p.length with ⟨i, heven | hodd'⟩
  · have hcr := hodd i (by omega)
    rw [List.getElem?_append_right (by simp; omega), length_ascii, heven,
      show 2 * i + 1 - 2 * i = 1 by omega] at hcr
    cases hcr
  · have hcr := hodd i (by omega)
    rw [List.getElem?_append_right (by simp; omega), length_ascii, hodd', Nat.sub_self] at hcr
    cases hcr

/-- A text that ends a line, or nothing. -/
def Lines (t : JSString) : Prop := t = [] ∨ ∃ u, t = u ++ CRLF

/-- Bytes already in a string, and the data that follows a text there: one of them has the bytes
it should have. -/
def Slotted (enc e : Encoding) (t : JSString) (b : Bytes) : Prop :=
  (encode enc t = b ∧ (enc = e ∨ e = .utf8)) ∨ (enc = e ∧ t.length ≤ b.length)

theorem encode_joined_ucs2 {e : Encoding} {t p s q : JSString} {b : Bytes}
    (hp : ∀ c ∈ p ++ CRLF, c < 0x80) (hq : Lines q) (hslot : Slotted .ucs2 e t b) :
    encode .ucs2 (t ++ (p ++ CRLF) ++ s ++ q) ≠
      b ++ ascii (p ++ CRLF) ++ encode e s ++ ascii q := by
  have hne : Encoding.ucs2 ≠ .base64 := by decide
  intro h
  simp only [encode_append hne (t ++ (p ++ CRLF) ++ s), encode_append hne (t ++ (p ++ CRLF)),
    encode_append hne t] at h
  rcases hslot with ⟨ht, -⟩ | ⟨rfl, -⟩
  · rw [ht, List.append_assoc, List.append_assoc, List.append_assoc, List.append_assoc] at h
    exact encode_ucs2_ne hp _ _ (List.append_cancel_left h)
  · rcases hq with rfl | ⟨q, rfl⟩
    · rw [encode_nil, ascii_nil, List.append_nil, List.append_nil] at h
      have hlast := congrArg List.getLast? (List.append_cancel_right h)
      rw [encode_ucs2_line, ascii_line] at hlast
      simp at hlast
    · have hlast := congrArg List.getLast? h
      rw [encode_ucs2_line q, ascii_line q] at hlast
      simp at hlast

theorem encode_joined_base64 {e : Encoding} {t p s q : JSString} {b : Bytes}
    (hslot : Slotted .base64 e t b) :
    encode .base64 (t ++ (p ++ CRLF) ++ s ++ q) ≠
      b ++ ascii (p ++ CRLF) ++ encode e s ++ ascii q := by
  intro h
  have hlen := congrArg List.length h
  have hsplit : (Base64.alphabet (asciiValue (t ++ (p ++ CRLF) ++ s ++ q))).length =
      (Base64.alphabet (asciiValue t)).length +
        (Base64.alphabet (asciiValue (p ++ CRLF))).length +
        (Base64.alphabet (asciiValue s)).length + (Base64.alphabet (asciiValue q)).length := by
    unfold asciiValue
    simp only [List.map_append, Base64.alphabet_append, List.length_append]
  have hline := length_alphabet_line p
  have hbound : ∀ u : JSString, (Base64.alphabet (asciiValue u)).length ≤ u.length := by
    intro u
    have hle := Base64.length_alphabet_le (asciiValue u)
    have hmap : (asciiValue u).length = u.length := List.length_map _
    omega
  have hb : (Base64.alphabet (asciiValue t)).length * 3 / 4 ≤ b.length := by
    rcases hslot with ⟨rfl, -⟩ | ⟨-, hle⟩
    · exact (length_encode_base64 t).ge
    · have := hbound t
      omega
  have hs : (Base64.alphabet (asciiValue s)).length * 3 / 4 ≤ (encode e s).length := by
    have he : e = .base64 ∨ e = .utf8 := by
      rcases hslot with ⟨-, he | he⟩ | ⟨he, -⟩
      · exact Or.inl he.symm
      · exact Or.inr he
      · exact Or.inl he.symm
    rcases he with rfl | rfl
    · exact (length_encode_base64 s).ge
    · have := hbound s
      have := length_le_encode_utf8 s
      omega
  have hq := hbound q
  have hcrlf : CRLF.length = 2 := rfl
  rw [length_encode_base64, hsplit] at hlen
  simp only [List.length_append, length_ascii] at hlen
  omega

theorem encode_joined_single {enc e : Encoding} (hkeep : enc.keepsAscii = true)
    {t p s q : JSString} {b : Bytes} (hp : ∀ c ∈ p, c < 0x80) (hq : ∀ c ∈ q, c < 0x80)
    (hslot : Slotted enc e t b) :
    encode enc (t ++ p ++ s ++ q) = b ++ ascii p ++ encode e s ++ ascii q ↔
      encode enc t = b ∧ encode enc p = ascii p ∧ encode enc s = encode e s ∧
        encode enc q = ascii q := by
  have hne := enc.keepsAscii_ne_base64 hkeep
  have hlenp : (encode enc p).length = (ascii p).length := by
    rw [length_encode_ascii hkeep hp, length_ascii]
  have hlenq : (encode enc q).length = (ascii q).length := by
    rw [length_encode_ascii hkeep hq, length_ascii]
  rw [encode_append hne, encode_append hne, encode_append hne]
  constructor
  · intro h
    obtain ⟨h, hq⟩ := List.append_inj' h hlenq
    rcases hslot with ⟨ht, -⟩ | ⟨rfl, -⟩
    · rw [ht, List.append_assoc, List.append_assoc] at h
      obtain ⟨hp, hs⟩ := List.append_inj (List.append_cancel_left h) hlenp
      exact ⟨ht, hp, hs, hq⟩
    · obtain ⟨ht, hp⟩ := List.append_inj' (List.append_cancel_right h) hlenp
      exact ⟨ht, hp, rfl, hq⟩
  · rintro ⟨ht, hp, hs, hq⟩
    rw [ht, hp, hs, hq]

/-- Data in one string with the text around it, after what was in the string before. -/
theorem encode_joined_iff {enc e : Encoding} {t p s q : JSString} {b : Bytes}
    (hascii : ∀ c ∈ p ++ q, c < 0x80) (hp : ∃ u, p = u ++ CRLF) (hq : Lines q)
    (hslot : Slotted enc e t b) :
    encode enc (t ++ p ++ s ++ q) = b ++ ascii p ++ encode e s ++ ascii q ↔
      Keeps enc (p ++ q) ∧ encode enc t = b ∧ encode enc s = encode e s := by
  have hpa : ∀ c ∈ p, c < 0x80 := fun c hc => hascii c (List.mem_append_left _ hc)
  have hqa : ∀ c ∈ q, c < 0x80 := fun c hc => hascii c (List.mem_append_right _ hc)
  by_cases hkeep : enc.keepsAscii = true
  · have hsplit : encode enc (p ++ q) = ascii (p ++ q) ↔
        encode enc p = ascii p ∧ encode enc q = ascii q := by
      rw [encode_append (enc.keepsAscii_ne_base64 hkeep), ascii_append]
      constructor
      · intro h
        exact List.append_inj h (by rw [length_encode_ascii hkeep hpa, length_ascii])
      · rintro ⟨hp, hq⟩
        rw [hp, hq]
    rw [encode_joined_single hkeep hpa hqa hslot, ← encode_eq_ascii_iff hkeep hascii, hsplit]
    tauto
  · refine iff_of_false ?_ fun h => hkeep h.1.keepsAscii
    obtain ⟨u, rfl⟩ := hp
    cases enc with
    | ucs2 => exact encode_joined_ucs2 hpa hq hslot
    | base64 => exact encode_joined_base64 hslot
    | _ => exact absurd rfl hkeep

/-! ### Where a string goes -/

/-- The item that a string becomes part of: what goes out before it, the text that precedes the
string in it, the bytes which that text stands for, and the encoding. -/
structure Slot where
  before : List (Chunk × EncArg)
  text : JSString
  bytes : Bytes
  encoding : EncArg

/-- `_writeRaw` passes a string on by itself where there is a socket, and else `_buffer` may add
it to the last item of the queue. -/
def slot (m : Outgoing) (e : EncArg) : Slot :=
  if m.attached then ⟨m.output, [], [], e⟩
  else
    match m.output.getLast? with
    | some (.str lastData, lastEncoding) =>
      if (e.isSome ∧ lastEncoding = e) ∨ e = none then
        ⟨m.output.dropLast, lastData, encode lastEncoding.encoding lastData, lastEncoding⟩
      else ⟨m.output, [], [], e⟩
    | some (.buffer lastData, lastEncoding) =>
      if e.isSome ∧ lastEncoding = e then
        ⟨m.output.dropLast, utf8Slice lastData, lastData, lastEncoding⟩
      else ⟨m.output, [], [], e⟩
    | none => ⟨m.output, [], [], e⟩

def Slot.sentBefore (sl : Slot) : Bytes := wireBytes sl.before ++ sl.bytes

def Slot.sentWith (sl : Slot) (t : JSString) : Bytes :=
  wireBytes sl.before ++ encode sl.encoding.encoding (sl.text ++ t)

theorem slot_sentBefore (m : Outgoing) (e : EncArg) :
    (slot m e).sentBefore = wireBytes m.output := by
  unfold slot
  split_ifs
  · exact List.append_nil _
  · rcases List.eq_nil_or_concat' m.output with hnil | ⟨init, ⟨last, lastEncoding⟩, hsnoc⟩
    · rw [hnil]
      rfl
    · rw [hsnoc, List.getLast?_concat, List.dropLast_concat]
      cases last with
      | str lastData =>
        dsimp only
        split_ifs
        · simp [Slot.sentBefore, Chunk.encode]
        · exact List.append_nil _
      | buffer lastData =>
        dsimp only
        split_ifs
        · simp [Slot.sentBefore, Chunk.encode]
        · exact List.append_nil _

theorem slotted_slot (m : Outgoing) (e : EncArg) :
    Slotted (slot m e).encoding.encoding e.encoding (slot m e).text (slot m e).bytes := by
  have hnew : Slotted e.encoding e.encoding [] [] := Or.inl ⟨encode_nil _, Or.inl rfl⟩
  unfold slot
  split_ifs
  · exact hnew
  · split
    · split_ifs with hmerge
      · refine Or.inl ⟨rfl, ?_⟩
        rcases hmerge with ⟨-, hsame⟩ | hnone
        · exact Or.inl (congrArg EncArg.encoding hsame)
        · exact Or.inr (congrArg EncArg.encoding hnone)
      · exact hnew
    · split_ifs with hmerge
      · exact Or.inr ⟨congrArg EncArg.encoding hmerge.2, length_utf8Slice_le _⟩
      · exact hnew
    · exact hnew

/-- A string that `_buffer` puts into the queue. -/
theorem buffer_slot {m : Outgoing} (ha : m.attached = false) {t : JSString} (ht : t ≠ [])
    (e : EncArg) :
    buffer m.output (.str t) e =
      (slot m e).before ++ [(.str ((slot m e).text ++ t), (slot m e).encoding)] := by
  have hlen : ¬ (Chunk.str t).length = 0 := fun h => ht (List.length_eq_zero_iff.mp h)
  unfold buffer slot
  rw [if_neg hlen, ha, if_neg Bool.false_ne_true]
  cases m.output.getLast? with
  | none => rfl
  | some last =>
    obtain ⟨lastData, lastEncoding⟩ := last
    cases lastData with
    | str lastData =>
      dsimp only
      split_ifs
      · rfl
      · rfl
    | buffer lastData =>
      dsimp only
      split_ifs
      · rfl
      · rfl

theorem sent_raw (s : Endpoint Log) {t : JSString} (ht : t ≠ []) (e : EncArg) :
    sent (raw s (.str t) e) = wireBytes s.sock.writes ++ (slot s.msg e).sentWith t := by
  unfold raw sent Slot.sentWith
  cases ha : s.msg.attached with
  | true =>
    have hslot : slot s.msg e = ⟨s.msg.output, [], [], e⟩ := if_pos ha
    simp [hslot, Chunk.encode]
  | false =>
    simp [buffer_slot ha ht e, Chunk.encode]

theorem sent_raw_nil (s : Endpoint Log) : sent (raw s (.str []) none) = sent s := by
  unfold raw sent
  cases s.msg.attached with
  | true => simp [Chunk.encode]
  | false => simp [buffer, Chunk.length]

/-- A string without an encoding stays in the item of the string before it. -/
theorem sent_raw_raw {s : Endpoint Log} (ha : s.msg.attached = false) {t : JSString} (ht : t ≠ [])
    (e : EncArg) (u : JSString) :
    sent (raw (raw s (.str t) e) (.str u) none) =
      wireBytes s.sock.writes ++ (slot s.msg e).sentWith (t ++ u) := by
  by_cases hu : u = []
  · rw [hu, List.append_nil, ← sent_raw s ht e]
    have hdetached : ¬ (raw s (.str t) e).msg.attached = true := by
      obtain ⟨output, hmsg⟩ := raw_msg s (.str t) e
      rw [hmsg]
      simp [ha]
    rw [raw, if_neg hdetached]
    rfl
  · have hraw : raw s (.str t) e =
        { s with msg := { s.msg with output := (slot s.msg e).before ++
          [(.str ((slot s.msg e).text ++ t), (slot s.msg e).encoding)] } } := by
      rw [raw, if_neg (by simp [ha]), buffer_slot ha ht e]
    rw [hraw, sent_raw _ hu]
    unfold Slot.sentWith slot
    simp [ha]

/-! ### Calls that send data -/

/-- `write(s, e)`, or `end(s, e)`. -/
def bodyCall (ending : Bool) (s : JSString) (e : EncArg) : Call :=
  if ending then .end (some (.str s)) e else .write (.str s) e

/-- The bytes a call should add to the wire: only the data is encoded as the caller asks for. -/
def expected (m : Outgoing) (ending : Bool) (s : JSString) (e : EncArg) : Bytes :=
  (if ending = false ∧ s = [] then [] else ascii (pendingHeader m)) ++
  (if s = [] then []
    else if m.chunkedEncoding then
      ascii (hex (byteLength e.encoding s) ++ CRLF) ++ encode e.encoding s ++ ascii CRLF
    else encode e.encoding s) ++
  (if ending ∧ m.chunkedEncoding then ascii (lastChunk m) else [])

/-- The last chunk is part of the string that has the data: on the hot path, and in `output`. -/
def together (m : Outgoing) (ending : Bool) : Bool :=
  ending && m.chunkedEncoding && !(m.attached && (m.headerSent || !m.output.isEmpty))

def leading (m : Outgoing) (s : JSString) (e : EncArg) : JSString :=
  pendingHeader m ++ if m.chunkedEncoding then hex (byteLength e.encoding s) ++ CRLF else []

def trailing (m : Outgoing) (ending : Bool) : JSString :=
  (if m.chunkedEncoding then CRLF else []) ++ if together m ending then lastChunk m else []

/-- The last chunk, where it is sent on its own. -/
def separate (m : Outgoing) (ending : Bool) : JSString :=
  if ending && m.chunkedEncoding && (m.attached && (m.headerSent || !m.output.isEmpty)) then
    lastChunk m
  else []

/-- What `end` sends where there is no data. -/
def closing (m : Outgoing) : JSString :=
  pendingHeader m ++ if m.chunkedEncoding then lastChunk m else []

/-- A message with a body and a header. -/
structure Sendable (m : Outgoing) : Prop where
  finished : m.finished = false
  hasBody : m.hasBody = true
  header : ∃ firstLine lines, m.header = some (render firstLine lines)
  headerAscii : ∀ c ∈ m.headerText, c < 0x80
  trailerAscii : ∀ c ∈ m.trailer, c < 0x80

theorem Sendable.header_isNone {m : Outgoing} (h : Sendable m) : m.header.isNone = false := by
  obtain ⟨firstLine, lines, hheader⟩ := h.header
  rw [hheader]
  rfl

theorem sendTo_str (s : Endpoint Log) (t : JSString) (e : EncArg) :
    sendTo s (.str t) e = raw { s with msg := { s.msg with headerSent := true } }
      (.str (pendingHeader s.msg ++ t)) e := by
  unfold sendTo pendingHeader
  split_ifs with hsent
  · rw [List.nil_append, ← hsent]
  · rfl

/-- The string of a `_send`. -/
theorem sent_sendTo (s : Endpoint Log) {t : JSString} (ht : pendingHeader s.msg ++ t ≠ [])
    (e : EncArg) :
    sent (sendTo s (.str t) e) =
      wireBytes s.sock.writes ++ (slot s.msg e).sentWith (pendingHeader s.msg ++ t) := by
  rw [sendTo_str]
  exact sent_raw { s with msg := { s.msg with headerSent := true } } ht e

/-- Data outside the hot path, and what closes the message. -/
theorem sent_sendTo_lastSend (s : Endpoint Log) {t : JSString} (ht : t ≠ []) (e : EncArg) :
    sent (sendTo (sendTo s (.str t) e) (lastSend s.msg).1 (lastSend s.msg).2) =
      if s.msg.attached then
        wireBytes s.sock.writes ++ (slot s.msg e).sentWith (pendingHeader s.msg ++ t) ++
          encode .utf8 (if s.msg.chunkedEncoding then lastChunk s.msg else [])
      else
        wireBytes s.sock.writes ++ (slot s.msg e).sentWith
          (pendingHeader s.msg ++ t ++ if s.msg.chunkedEncoding then lastChunk s.msg else []) := by
  have hne : pendingHeader s.msg ++ t ≠ [] := fun h => ht (List.append_eq_nil_iff.mp h).2
  have hsent := sent_sendTo s hne e
  obtain ⟨output, hmsg⟩ := sendTo_msg s (.str t) e
  have hpending : pendingHeader (sendTo s (.str t) e).msg = [] := by
    rw [hmsg]
    rfl
  rw [lastSend_eq, sendTo_str (sendTo s (.str t) e), hpending, List.nil_append]
  generalize (if s.msg.chunkedEncoding = true then lastChunk s.msg else []) = last
  have hstill : ({ sendTo s (.str t) e with
      msg := { (sendTo s (.str t) e).msg with headerSent := true } } : Endpoint Log) =
        sendTo s (.str t) e := by
    rw [hmsg, ← hmsg]
  rw [hstill]
  split_ifs with ha
  · have hattached : (sendTo s (.str t) e).msg.attached = true := by
      rw [hmsg]
      exact ha
    rw [← hsent]
    unfold raw
    rw [if_pos hattached]
    simp [sent, Chunk.encode, EncArg.encoding]
  · rw [Bool.not_eq_true] at ha
    rw [sendTo_str]
    exact sent_raw_raw (s := { s with msg := { s.msg with headerSent := true } }) ha hne e last

theorem chunkText_ne_nil (m : Outgoing) {s : JSString} (hs : s ≠ []) (e : EncArg) :
    chunkText m s e ≠ [] := by
  unfold chunkText
  split_ifs
  · simp [hs]
  · exact hs

theorem pending_chunkText (m : Outgoing) (s : JSString) (e : EncArg) :
    pendingHeader m ++ chunkText m s e =
      leading m s e ++ s ++ if m.chunkedEncoding then CRLF else [] := by
  unfold chunkText leading
  split_ifs
  · simp
  · simp

theorem exec_end_sent (kind : Kind) {s : Endpoint Log} (h : Sendable s.msg) (data : Option Chunk)
    (e : EncArg) : sent (kind.exec s (.end data e)) = sent (closeTo s data e) := by
  rw [kind.exec_end h.finished, kind.implicitTo_of_header h.header_isNone,
    endTo_of_header h.finished h.header_isNone]
  rfl

/-- A call with data sends it in one string with the text around it. -/
theorem sent_bodyCall {kind : Kind} {s : Endpoint Log} (h : Sendable s.msg) (ending : Bool)
    {t : JSString} (ht : t ≠ []) (e : EncArg) :
    sent (kind.exec s (bodyCall ending t e)) =
      wireBytes s.sock.writes ++
        (slot s.msg e).sentWith (leading s.msg t e ++ t ++ trailing s.msg ending) ++
          encode .utf8 (separate s.msg ending) := by
  have htext := chunkText_ne_nil s.msg ht e
  have hlead := pending_chunkText s.msg t e
  cases ending with
  | false =>
    show sent (kind.exec s (.write (.str t) e)) = _
    have htrail : trailing s.msg false = if s.msg.chunkedEncoding then CRLF else [] :=
      List.append_nil _
    have hsep : separate s.msg false = [] := rfl
    have hne : pendingHeader s.msg ++ chunkText s.msg t e ≠ [] :=
      fun h => htext (List.append_eq_nil_iff.mp h).2
    rw [kind.exec_write, kind.implicitTo_of_header h.header_isNone, bodySends_str h.hasBody ht,
      htrail, ← hlead, hsep, encode_nil, List.append_nil, sendAll, List.foldl_cons,
      List.foldl_nil, sent_sendTo s hne]
  | true =>
    show sent (kind.exec s (.end (some (.str t)) e)) = _
    have hdata : endData s.msg (some (.str t)) = some (.str t) := if_pos h.hasBody
    have hlen : t.length > 0 := List.length_pos_of_ne_nil ht
    rw [exec_end_sent kind h]
    unfold closeTo
    rw [hdata]
    split_ifs with hc
    · simp only [hotPath, hlen, decide_true, Bool.and_true, Bool.and_eq_true, decide_eq_true_eq,
        List.isEmpty_iff] at hc
      obtain ⟨⟨hsent, hout⟩, ha⟩ := hc
      have hsep : separate s.msg true = [] := by
        simp [separate, hsent, hout]
      have htrail : hotText s.msg t e = leading s.msg t e ++ t ++ trailing s.msg true := by
        unfold trailing together
        rw [hotText_eq hsent, hlead]
        simp [hsent, hout]
      have hslot : slot s.msg e = ⟨s.msg.output, [], [], e⟩ := if_pos ha
      simp [sent, hout, hsep, htrail, hslot, Slot.sentWith, Chunk.encode]
    · have hsends : endSends s.msg (some (.str t)) e =
          [(.str (chunkText s.msg t e), e), lastSend s.msg] := by
        unfold endSends
        rw [hdata]
        dsimp only
        rw [bodySends_str h.hasBody ht]
        rfl
      rw [hsends, sendAll, List.foldl_cons, List.foldl_cons, List.foldl_nil,
        sent_sendTo_lastSend s htext, hlead]
      have hapart : s.msg.attached = true → (s.msg.headerSent || !s.msg.output.isEmpty) = true := by
        intro ha
        by_contra hne
        rw [Bool.not_eq_true, Bool.or_eq_false_iff, Bool.not_eq_false'] at hne
        exact hc (by simp [hotPath, hlen, ha, hne.1, hne.2])
      unfold separate trailing together
      by_cases ha : s.msg.attached = true
      · rw [if_pos ha, ha, hapart ha]
        simp
      · rw [if_neg ha]
        simp [ha]

/-! ### When the text around the data is what it should be -/

/-- Nothing but the data is sent. -/
def Bare (m : Outgoing) : Prop := m.headerSent = true ∧ m.chunkedEncoding = false

instance (m : Outgoing) : Decidable (Bare m) := inferInstanceAs (Decidable (_ ∧ _))

/-- The item in which the data goes out has an encoding that keeps the header and, where the last
chunk is in the same string, the trailers; what is in the item has the same bytes as by itself.
Without text around the data the two need not be right by themselves. -/
def Unmixed (m : Outgoing) (ending : Bool) (s : JSString) (e : EncArg) : Prop :=
  if s = [] then
    ending = true → Bare m ∨ Keeps (slot m none).encoding.encoding
      (pendingHeader m ++ if m.chunkedEncoding then m.trailer else [])
  else if Bare m then
    encode (slot m e).encoding.encoding ((slot m e).text ++ s) =
      (slot m e).bytes ++ encode e.encoding s
  else
    Keeps (slot m e).encoding.encoding
        (pendingHeader m ++ if together m ending then m.trailer else []) ∧
      encode (slot m e).encoding.encoding (slot m e).text = (slot m e).bytes ∧
      encode (slot m e).encoding.encoding s = encode e.encoding s

theorem zero_notMem_hex (n : ℤ) : 0 ∉ hex n := by
  intro h
  have htext := hex_text n 0 h
  revert htext
  decide

theorem zero_mem_lastChunk (m : Outgoing) : 0 ∈ lastChunk m ↔ 0 ∈ m.trailer := by
  have hzero : (0 : UInt16) ∉ js "0\r\n" := by decide
  simp [lastChunk, hzero, zero_notMem_CRLF]

theorem zero_mem_around (m : Outgoing) (ending : Bool) (s : JSString) (e : EncArg) :
    0 ∈ leading m s e ++ trailing m ending ↔
      0 ∈ pendingHeader m ++ if together m ending then m.trailer else [] := by
  unfold leading trailing
  split_ifs
  · simp [zero_notMem_hex, zero_notMem_CRLF, zero_mem_lastChunk]
  · simp [zero_notMem_hex, zero_notMem_CRLF]
  · simp [zero_mem_lastChunk]
  · simp

theorem zero_mem_closing (m : Outgoing) :
    0 ∈ closing m ↔ 0 ∈ pendingHeader m ++ if m.chunkedEncoding then m.trailer else [] := by
  unfold closing
  split_ifs
  · simp [zero_mem_lastChunk]
  · rfl

theorem lines_lastChunk (m : Outgoing) : ∃ u, lastChunk m = u ++ CRLF := ⟨_, rfl⟩

theorem Sendable.lastChunk_ascii {m : Outgoing} (h : Sendable m) : ∀ c ∈ lastChunk m, c < 0x80 := by
  have hzero : ∀ c ∈ js "0\r\n", IsText c := isText_of_all (by decide)
  intro c hc
  unfold lastChunk at hc
  rw [List.mem_append, List.mem_append] at hc
  rcases hc with (hc | hc) | hc
  · exact (hzero c hc).2
  · exact h.trailerAscii c hc
  · exact (CRLF_text c hc).2

theorem Sendable.pendingHeader_ascii {m : Outgoing} (h : Sendable m) :
    ∀ c ∈ pendingHeader m, c < 0x80 := by
  intro c hc
  unfold pendingHeader at hc
  split_ifs at hc
  · cases hc
  · exact h.headerAscii c hc

theorem Sendable.around_ascii {m : Outgoing} (h : Sendable m) (ending : Bool) (s : JSString)
    (e : EncArg) : ∀ c ∈ leading m s e ++ trailing m ending, c < 0x80 := by
  intro c hc
  unfold leading trailing at hc
  rw [List.mem_append, List.mem_append, List.mem_append] at hc
  rcases hc with (hc | hc) | (hc | hc)
  · exact h.pendingHeader_ascii c hc
  · split_ifs at hc
    · rcases List.mem_append.mp hc with hc | hc
      · exact (hex_text _ c hc).2
      · exact (CRLF_text c hc).2
    · cases hc
  · split_ifs at hc
    · exact (CRLF_text c hc).2
    · cases hc
  · split_ifs at hc
    · exact h.lastChunk_ascii c hc
    · cases hc

theorem Sendable.closing_ascii {m : Outgoing} (h : Sendable m) : ∀ c ∈ closing m, c < 0x80 := by
  intro c hc
  unfold closing at hc
  rcases List.mem_append.mp hc with hc | hc
  · exact h.pendingHeader_ascii c hc
  · split_ifs at hc
    · exact h.lastChunk_ascii c hc
    · cases hc

/-- The header ends a line. -/
theorem Sendable.header_line {m : Outgoing} (h : Sendable m) : ∃ u, m.headerText = u ++ CRLF := by
  obtain ⟨firstLine, lines, hheader⟩ := h.header
  exact ⟨_, by rw [Outgoing.headerText, hheader]; rfl⟩

theorem headerSent_of_not_bare {m : Outgoing} (hbare : ¬ Bare m)
    (hc : m.chunkedEncoding = false) : m.headerSent = false := by
  by_contra hne
  exact hbare ⟨Bool.eq_true_of_not_eq_false hne, hc⟩

/-- The text around the data consists of whole lines. -/
theorem Sendable.leading_line {m : Outgoing} (h : Sendable m) (hbare : ¬ Bare m) (s : JSString)
    (e : EncArg) : ∃ u, leading m s e = u ++ CRLF := by
  unfold leading
  by_cases hc : m.chunkedEncoding = true
  · exact ⟨pendingHeader m ++ hex (byteLength e.encoding s), by simp [hc]⟩
  · rw [Bool.not_eq_true] at hc
    have hsent := headerSent_of_not_bare hbare hc
    obtain ⟨u, hu⟩ := h.header_line
    exact ⟨u, by simp [pendingHeader, hsent, hc, hu]⟩

theorem Sendable.closing_line {m : Outgoing} (h : Sendable m) (hbare : ¬ Bare m) :
    ∃ u, closing m = u ++ CRLF := by
  unfold closing
  by_cases hc : m.chunkedEncoding = true
  · obtain ⟨u, hu⟩ := lines_lastChunk m
    exact ⟨pendingHeader m ++ u, by simp [hc, hu]⟩
  · rw [Bool.not_eq_true] at hc
    have hsent := headerSent_of_not_bare hbare hc
    obtain ⟨u, hu⟩ := h.header_line
    exact ⟨u, by simp [pendingHeader, hsent, hc, hu]⟩

theorem trailing_lines (m : Outgoing) (ending : Bool) : Lines (trailing m ending) := by
  unfold trailing
  split_ifs
  · obtain ⟨u, hu⟩ := lines_lastChunk m
    exact Or.inr ⟨CRLF ++ u, by simp [hu]⟩
  · exact Or.inr ⟨[], by simp⟩
  · exact Or.inr (lines_lastChunk m)
  · exact Or.inl rfl

/-- What is expected of a call with data. -/
theorem expected_eq (m : Outgoing) (ending : Bool) {s : JSString} (hs : s ≠ []) (e : EncArg) :
    expected m ending s e =
      ascii (leading m s e) ++ encode e.encoding s ++ ascii (trailing m ending) ++
        ascii (separate m ending) := by
  unfold expected leading trailing separate together
  rw [if_neg (fun h => hs h.2), if_neg hs]
  cases m.chunkedEncoding with
  | false => simp
  | true =>
    cases ending with
    | false => simp
    | true =>
      cases (m.attached && (m.headerSent || !m.output.isEmpty)) with
      | true => simp
      | false => simp

theorem expected_closing (m : Outgoing) (e : EncArg) :
    expected m true [] e = ascii (closing m) := by
  unfold expected closing
  cases m.chunkedEncoding with
  | false => simp
  | true => simp

/-- A string without an encoding is added to a string, or stands by itself. -/
theorem slot_none (m : Outgoing) :
    encode (slot m none).encoding.encoding (slot m none).text = (slot m none).bytes := by
  unfold slot
  split_ifs
  · rfl
  · split
    · split_ifs
      · rfl
      · rfl
    · rfl
    · rfl

/-- A text that is sent without an encoding. -/
theorem slot_none_iff (m : Outgoing) {t : JSString} (ht : ∀ c ∈ t, c < 0x80)
    (hline : ∃ u, t = u ++ CRLF) :
    (slot m none).sentWith t = wireBytes m.output ++ ascii t ↔
      Keeps (slot m none).encoding.encoding t := by
  have hjoined := encode_joined_iff (s := []) (q := []) (by simpa using ht) hline (Or.inl rfl)
    (slotted_slot m none)
  rw [encode_nil, encode_nil, ascii_nil, List.append_nil, List.append_nil, List.append_nil,
    List.append_nil, List.append_nil, and_iff_left ⟨slot_none m, rfl⟩] at hjoined
  rw [← slot_sentBefore m none, ← hjoined]
  unfold Slot.sentWith Slot.sentBefore
  rw [List.append_assoc, List.append_cancel_left_eq]

theorem sent_eq (s : Endpoint Log) (e : EncArg) :
    sent s = wireBytes s.sock.writes ++ (slot s.msg e).sentBefore := by
  rw [slot_sentBefore, sent, wireBytes_append]

theorem sent_end_nil {kind : Kind} {s : Endpoint Log} (h : Sendable s.msg) (e : EncArg) :
    sent (kind.exec s (bodyCall true [] e)) =
      if closing s.msg = [] then sent s
      else wireBytes s.sock.writes ++ (slot s.msg none).sentWith (closing s.msg) := by
  have hsends : endSends s.msg (some (.str [])) e = [lastSend s.msg] := by
    unfold endSends endData
    rw [if_pos h.hasBody]
    dsimp only
    rw [bodySends_nil]
    rfl
  show sent (kind.exec s (.end (some (.str [])) e)) = _
  rw [exec_end_sent kind h]
  unfold closeTo
  rw [if_neg (by simp [hotPath, endData, h.hasBody]), hsends, sendAll, List.foldl_cons,
    List.foldl_nil, lastSend_eq]
  by_cases hnil : closing s.msg = []
  · rw [if_pos hnil]
    unfold closing at hnil
    rw [sendTo_str, hnil]
    exact sent_raw_nil _
  · rw [if_neg hnil]
    exact sent_sendTo s hnil none

/-- Without data. -/
theorem sent_nil_iff {kind : Kind} {s : Endpoint Log} (h : Sendable s.msg) (ending : Bool)
    (e : EncArg) :
    sent (kind.exec s (bodyCall ending [] e)) = sent s ++ expected s.msg ending [] e ↔
      Unmixed s.msg ending [] e := by
  unfold Unmixed
  rw [if_pos rfl]
  cases ending with
  | false =>
    refine iff_of_true ?_ nofun
    show sent (kind.exec s (.write (.str []) e)) = _
    rw [kind.exec_write, kind.implicitTo_of_header h.header_isNone, bodySends_nil]
    simp [sendAll, expected]
  | true =>
    rw [sent_end_nil h, expected_closing, forall_prop_of_true rfl]
    by_cases hbare : Bare s.msg
    · have hnil : closing s.msg = [] := by
        simp [closing, pendingHeader, hbare.1, hbare.2]
      rw [if_pos hnil, hnil, ascii_nil, List.append_nil]
      exact iff_of_true rfl (Or.inl hbare)
    · obtain ⟨u, hu⟩ := h.closing_line hbare
      have hne : closing s.msg ≠ [] := by
        rw [hu]
        simp [CRLF, js]
      rw [if_neg hne, or_iff_right hbare, ← Keeps.congr (zero_mem_closing s.msg),
        ← slot_none_iff s.msg h.closing_ascii ⟨u, hu⟩, sent_eq s none, slot_sentBefore,
        List.append_assoc, List.append_cancel_left_eq]

theorem sent_bodyCall_iff {kind : Kind} {s : Endpoint Log} (h : Sendable s.msg) (ending : Bool)
    (t : JSString) (e : EncArg) :
    sent (kind.exec s (bodyCall ending t e)) = sent s ++ expected s.msg ending t e ↔
      Unmixed s.msg ending t e := by
  by_cases ht : t = []
  · rw [ht]
    exact sent_nil_iff h ending e
  unfold Unmixed
  rw [if_neg ht, sent_bodyCall h ending ht, expected_eq s.msg ending ht, sent_eq s e]
  by_cases hbare : Bare s.msg
  · have hlead : leading s.msg t e = [] := by
      simp [leading, pendingHeader, hbare.1, hbare.2]
    have htrail : trailing s.msg ending = [] := by
      simp [trailing, together, hbare.2]
    have hsep : separate s.msg ending = [] := by
      simp [separate, hbare.2]
    rw [if_pos hbare, hlead, htrail, hsep]
    unfold Slot.sentWith Slot.sentBefore
    simp only [encode_nil, ascii_nil, List.append_nil, List.nil_append, List.append_assoc,
      List.append_cancel_left_eq]
  · have hsep : encode .utf8 (separate s.msg ending) = ascii (separate s.msg ending) := by
      apply encode_utf8_ascii
      intro c hc
      unfold separate at hc
      split_ifs at hc
      · exact h.lastChunk_ascii c hc
      · cases hc
    rw [if_neg hbare, hsep, ← List.append_assoc, List.append_cancel_right_eq,
      ← Keeps.congr (zero_mem_around s.msg ending t e),
      ← encode_joined_iff (h.around_ascii ending t e) (h.leading_line hbare t e)
        (trailing_lines s.msg ending) (slotted_slot s.msg e)]
    unfold Slot.sentWith Slot.sentBefore
    simp only [List.append_assoc, List.append_cancel_left_eq]

/-! ### A header made by the call -/

/-- The header that goes out before the data: one made by the call, if it has `Expect`. -/
def earlyHeader (kind : Kind) (m : Outgoing) : JSString :=
  if m.header.isNone ∧ (kind.headed m).headerSent then (kind.headed m).headerText else []

/-- A header that is sent early keeps its codes in the item it is added to. -/
def EarlyKept (kind : Kind) (m : Outgoing) : Prop :=
  m.header.isNone = true → (kind.headed m).headerSent = true →
    Keeps (slot m none).encoding.encoding (kind.headed m).headerText

theorem slot_congr {m m' : Outgoing} (hout : m'.output = m.output)
    (hatt : m'.attached = m.attached) (e : EncArg) : slot m' e = slot m e := by
  unfold slot
  rw [hout, hatt]

/-- `_storeHeader` sends the header if it has `Expect`, or nothing. -/
theorem sent_headTo (m : Outgoing) (firstLine : JSString) (lines : List Line) :
    let s := headTo ⟨m, ⟨[]⟩⟩ firstLine lines
    (s.msg.headerSent = true ∧ sent s = (slot m none).sentWith s.msg.headerText) ∨
      (s.msg.headerSent = false ∧ sent s = wireBytes m.output) := by
  obtain ⟨last, chunkedEncoding, shouldKeepAlive, hstore⟩ := storeLines_msg m lines
  have hout : (storeHeader m firstLine lines).1.output = m.output := by
    show (storeLines m lines).msg.output = m.output
    rw [hstore]
  have hatt : (storeHeader m firstLine lines).1.attached = m.attached := by
    show (storeLines m lines).msg.attached = m.attached
    rw [hstore]
  unfold headTo
  dsimp only
  cases (storeHeader m firstLine lines).2 with
  | true =>
    rw [if_pos rfl, sendAll, List.foldl_cons, List.foldl_nil]
    dsimp only
    have hne : pendingHeader (storeHeader m firstLine lines).1 ++ [] ≠ [] := by
      simp [pendingHeader, storeHeader, Outgoing.headerText, render, CRLF, js]
    have hsent := sent_sendTo ⟨(storeHeader m firstLine lines).1, ⟨[]⟩⟩ hne none
    obtain ⟨output, hmsg⟩ := sendTo_msg ⟨(storeHeader m firstLine lines).1, ⟨[]⟩⟩ (.str []) none
    rw [slot_congr hout hatt none, List.append_nil, wireBytes_nil, List.nil_append] at hsent
    rw [hmsg, hsent]
    exact Or.inl ⟨rfl, rfl⟩
  | false =>
    rw [if_neg Bool.false_ne_true]
    exact Or.inr ⟨rfl, congrArg wireBytes hout⟩

/-- What `_implicitHeader` sends keeps its codes if the encoding of the queue lets it. -/
theorem sent_implicitTo_iff {kind : Kind} {m : Outgoing} (h : Sendable (kind.headed m)) :
    sent (kind.implicitTo ⟨m, ⟨[]⟩⟩) = wireBytes m.output ++ ascii (earlyHeader kind m) ↔
      EarlyKept kind m := by
  unfold EarlyKept earlyHeader
  cases hnone : m.header.isNone with
  | false =>
    rw [kind.implicitTo_of_header (s := ⟨m, ⟨[]⟩⟩) hnone,
      if_neg (fun h => Bool.false_ne_true h.1)]
    exact iff_of_true (List.append_nil _).symm (fun h => absurd h Bool.false_ne_true)
  | true =>
    have hearly : (sent (kind.implicitTo ⟨m, ⟨[]⟩⟩) =
          (slot m none).sentWith (kind.headed m).headerText ∧
            (kind.headed m).headerSent = true) ∨
        (sent (kind.implicitTo ⟨m, ⟨[]⟩⟩) = wireBytes m.output ∧
          (kind.headed m).headerSent = false) := by
      cases kind with
      | request firstLine =>
        have hto : (Kind.request firstLine).implicitTo ⟨m, ⟨[]⟩⟩ =
            headTo ⟨m, ⟨[]⟩⟩ firstLine (headersFor m none).lines := if_pos hnone
        unfold Kind.headed
        rw [hto]
        exact (sent_headTo m firstLine (headersFor m none).lines).imp And.symm And.symm
      | response =>
        have hfail : headFails m = false := by
          rw [Option.isNone_iff_eq_none] at hnone
          simp [headFails, hnone]
        have hto : Kind.response.implicitTo ⟨m, ⟨[]⟩⟩ = headTo ⟨m.withStatus m.statusCode, ⟨[]⟩⟩
            (statusLine m.statusCode none) (headersFor m none).lines := by
          unfold Kind.implicitTo implicitTo writeHeadTo
          dsimp only
          rw [if_pos hnone, hfail, if_neg Bool.false_ne_true]
        unfold Kind.headed
        have hslot : slot (m.withStatus m.statusCode) none = slot m none := slot_congr rfl rfl none
        rw [hto, ← hslot]
        exact (sent_headTo (m.withStatus m.statusCode) _ _).imp And.symm And.symm
    rcases hearly with ⟨hsent, hheader⟩ | ⟨hsent, hheader⟩
    · rw [hsent, hheader, if_pos ⟨rfl, rfl⟩, forall_prop_of_true rfl, forall_prop_of_true rfl]
      exact slot_none_iff m h.headerAscii h.header_line
    · rw [hsent, hheader, if_neg (fun h => Bool.false_ne_true h.2)]
      exact iff_of_true (List.append_nil _).symm (fun _ h => absurd h Bool.false_ne_true)

/-- The wire has what it should exactly if the encoding of the string that the data becomes part
of leaves the text alone that goes out in it; and so for a header that is sent before. -/
theorem sent_eq_expected_iff {kind : Kind} {m : Outgoing} (h : Sendable (kind.headed m))
    (ending : Bool) (s : JSString) (e : EncArg) :
    (sent (kind.implicitTo ⟨m, ⟨[]⟩⟩) = wireBytes m.output ++ ascii (earlyHeader kind m) ∧
      sent (kind.exec ⟨m, ⟨[]⟩⟩ (bodyCall ending s e)) =
        wireBytes m.output ++ ascii (earlyHeader kind m) ++
          expected (kind.headed m) ending s e) ↔
      EarlyKept kind m ∧ Unmixed (kind.headed m) ending s e := by
  have himplicit : kind.implicitTo (kind.implicitTo ⟨m, ⟨[]⟩⟩) = kind.implicitTo ⟨m, ⟨[]⟩⟩ :=
    kind.implicitTo_of_header h.header_isNone
  have hfirst : kind.exec ⟨m, ⟨[]⟩⟩ (bodyCall ending s e) =
      kind.exec (kind.implicitTo ⟨m, ⟨[]⟩⟩) (bodyCall ending s e) := by
    have hf : m.finished = false := (kind.implicitTo_finished ⟨m, ⟨[]⟩⟩).symm.trans h.finished
    cases ending with
    | false =>
      show kind.exec _ (.write (.str s) e) = kind.exec _ (.write (.str s) e)
      rw [kind.exec_write, kind.exec_write, himplicit]
    | true =>
      show kind.exec _ (.end (some (.str s)) e) = kind.exec _ (.end (some (.str s)) e)
      rw [kind.exec_end (s := ⟨m, ⟨[]⟩⟩) hf, kind.exec_end h.finished, himplicit]
  rw [hfirst, ← sent_implicitTo_iff h]
  refine and_congr_right ?_
  intro hsent
  rw [← hsent]
  exact sent_bodyCall_iff (s := kind.implicitTo ⟨m, ⟨[]⟩⟩) h ending s e

/-- A response with a socket of which nothing was sent. -/
def newResponse : Outgoing := trailed []

theorem sendable_newResponse : Sendable (Kind.response.headed newResponse) := by
  have hchunking : Chunking (Kind.response.headed (trailed [])) := chunking_trailed nofun
  exact ⟨rfl, rfl, ⟨statusLine 200 none, [(js "Connection", js "keep-alive"),
    (js "Transfer-Encoding", js "chunked")], rfl⟩, hchunking.headerAscii, nofun⟩

/-- A response that waits for its socket, after `writeContinue`. -/
def continued : Outgoing :=
  { ServerResponse.new false true with
    output := [(.str (js "HTTP/1.1 100 Continue" ++ CRLF ++ CRLF), some (encName .ascii))]
    sent100 := true }

theorem sendable_continued : Sendable (Kind.response.headed continued) := by
  obtain ⟨-, -, header, headerAscii, -⟩ := sendable_newResponse
  exact ⟨rfl, rfl, header, headerAscii, nofun⟩

/-- Binary data does not become part of the queued string, and leaves the header alone. -/
theorem sent_eq_expected_iff_continued :
    sent (Kind.response.exec ⟨continued, ⟨[]⟩⟩ (bodyCall true [0xe9] (some (encName .binary)))) =
      wireBytes continued.output ++ ascii (earlyHeader .response continued) ++
        expected (Kind.response.headed continued) true [0xe9] (some (encName .binary)) := by
  have hunmixed : Unmixed (Kind.response.headed continued) true [0xe9]
      (some (encName .binary)) := by
    unfold Unmixed
    rw [if_neg (by decide), if_neg (fun hbare => nomatch hbare.1)]
    exact ⟨trivial, rfl, rfl⟩
  exact ((sent_eq_expected_iff sendable_continued true [0xe9] (some (encName .binary))).mpr
    ⟨(fun _ h => nomatch h), hunmixed⟩).2

/-- `end('a', 'ucs2')` sends the header in UCS-2 as well. -/
theorem sent_ne_expected :
    ¬ ∀ (kind : Kind) (m : Outgoing), Sendable (kind.headed m) → ∀ ending s e,
      sent (kind.implicitTo ⟨m, ⟨[]⟩⟩) = wireBytes m.output ++ ascii (earlyHeader kind m) ∧
        sent (kind.exec ⟨m, ⟨[]⟩⟩ (bodyCall ending s e)) =
          wireBytes m.output ++ ascii (earlyHeader kind m) ++
            expected (kind.headed m) ending s e := by
  intro hall
  have heq := (hall .response newResponse sendable_newResponse true (js "a")
    (some (encName .ucs2))).2
  revert heq
  decide +kernel

end NodeJS.Http
