import NodeJS.Http.Wire
import NodeJS.Lib.Chunked

/-! The body of a message with `chunkedEncoding`, read back as a receiver reads it. -/
namespace NodeJS.Http
open Lib.Chunked (hexDigits hexOctet hexText crlf)

/-! ### The text between the chunks -/

theorem CRLF_text : ∀ c ∈ CRLF, IsText c := isText_of_all (by decide)

theorem encode_CRLF {e : Encoding} (he : e.keepsAscii = true) : encode e CRLF = crlf := by
  rw [encode_text he CRLF_text]
  rfl

/-- A digit as `toString(16)` writes it. -/
def hexUnit (d : ℕ) : UInt16 := (if d < 10 then d + 0x30 else d - 10 + 0x61).toUInt16

theorem hexUnit_text : ∀ d < 16, IsText (hexUnit d) ∧ lowByte (hexUnit d) = hexOctet d := by decide

theorem numeral_eq (n : ℕ) : numeral 16 n = (hexDigits n).map hexUnit := by
  unfold numeral hexDigits
  split_ifs
  · rfl
  · rfl

theorem numeral_text (n : ℕ) : ∀ c ∈ numeral 16 n, IsText c := by
  intro c hc
  rw [numeral_eq] at hc
  obtain ⟨d, hd, rfl⟩ := List.mem_map.mp hc
  exact (hexUnit_text d (Lib.Chunked.hexDigits_lt hd)).1

theorem hex_text (n : ℤ) : ∀ c ∈ hex n, IsText c := by
  have hminus : ∀ c ∈ js "-", IsText c := isText_of_all (by decide)
  intro c hc
  unfold hex at hc
  split_ifs at hc
  · rcases List.mem_append.mp hc with hc | hc
    · exact hminus c hc
    · exact numeral_text _ c hc
  · exact numeral_text _ c hc

theorem encode_hex {e : Encoding} (he : e.keepsAscii = true) (n : ℕ) :
    encode e (hex n) = hexText n := by
  have hpos : ¬ (n : ℤ) < 0 := by omega
  have hnumeral : hex n = numeral 16 n := by
    unfold hex
    rw [if_neg hpos, Int.natAbs_natCast]
  rw [encode_text he (hex_text n), hnumeral, numeral_eq, ascii, List.map_map]
  exact List.map_congr_left fun d hd => (hexUnit_text d (Lib.Chunked.hexDigits_lt hd)).2

/-- A chunk in one string with its size. -/
theorem encode_chunk {e : Encoding} (he : e.keepsAscii = true) {s : JSString} (hs : s ≠ []) :
    encode e (hex (byteLength e s) ++ CRLF ++ s ++ CRLF) = Lib.Chunked.chunk (encode e s) := by
  have hne := e.keepsAscii_ne_base64 he
  unfold Lib.Chunked.chunk
  rw [if_neg (encode_ne_nil hne hs), byteLength_eq hne]
  simp only [encode_append hne, encode_hex he, encode_CRLF he]

/-! ### Messages that write through to their socket -/

/-- A message that owns its socket, with nothing queued. -/
structure Owner (m : Outgoing) : Prop where
  attached : m.attached = true
  output : m.output = []
  finished : m.finished = false
  header : m.header.isNone = false

/-- A message whose body goes out in chunks. -/
structure Chunking (m : Outgoing) : Prop extends Owner m where
  hasBody : m.hasBody = true
  chunkedEncoding : m.chunkedEncoding = true
  headerAscii : ∀ c ∈ m.headerText, c < 0x80
  trailerAscii : ∀ c ∈ m.trailer, c < 0x80

/-- The bytes of a chunked message: its header, if it was sent, in the encoding of the string it
was part of, and what followed it. -/
structure Streamed (s : Endpoint Log) (sentIn : Option Encoding) (coding : Bytes) : Prop
    extends Chunking s.msg where
  headerSent_eq : s.msg.headerSent = sentIn.isSome
  pending : sentIn = none → s.sock.writes = [] ∧ coding = []
  wire : ∀ enc, sentIn = some enc → enc.keepsAscii = true ∧
    wireBytes s.sock.writes = encode enc s.msg.headerText ++ coding

theorem Chunking.withHeaderSent {m : Outgoing} (h : Chunking m) (b : Bool) :
    Chunking { m with headerSent := b } :=
  ⟨⟨h.attached, h.output, h.finished, h.header⟩, h.hasBody, h.chunkedEncoding, h.headerAscii,
    h.trailerAscii⟩

/-- Something was sent. -/
theorem Chunking.streamed {m : Outgoing} (h : Chunking m) {writes : List (Chunk × EncArg)}
    {enc : Encoding} (he : enc.keepsAscii = true) {coding : Bytes}
    (hwire : wireBytes writes = encode enc m.headerText ++ coding) :
    Streamed ⟨{ m with headerSent := true }, ⟨writes⟩⟩ (some enc) coding := by
  refine ⟨h.withHeaderSent true, rfl, ?_, ?_⟩
  · intro hnone
    cases hnone
  · intro enc' henc
    cases henc
    exact ⟨he, hwire⟩

theorem Streamed.sendTo_str {s : Endpoint Log} {sentIn : Option Encoding} {coding : Bytes}
    (h : Streamed s sentIn coding) (t : JSString) {e : EncArg}
    (he : e.encoding.keepsAscii = true) :
    Streamed (sendTo s (.str t) e) (some (sentIn.getD e.encoding))
        (coding ++ encode e.encoding t) ∧
      (sendTo s (.str t) e).msg = { s.msg with headerSent := true } := by
  rw [sendTo_direct h.attached h.output]
  refine ⟨?_, rfl⟩
  unfold pieces
  rw [h.headerSent_eq]
  cases sentIn with
  | some enc =>
    obtain ⟨henc, hwire⟩ := h.wire enc rfl
    apply h.toChunking.streamed henc
    simp [hwire, Chunk.encode]
  | none =>
    obtain ⟨hnil, hcoding⟩ := h.pending rfl
    apply h.toChunking.streamed he
    simp [hnil, hcoding, Chunk.encode, encode_append (e.encoding.keepsAscii_ne_base64 he)]

theorem Streamed.sendTo_buffer {s : Endpoint Log} {enc : Encoding} {coding : Bytes}
    (h : Streamed s (some enc) coding) (b : Bytes) (e : EncArg) :
    Streamed (sendTo s (.buffer b) e) (some enc) (coding ++ b) ∧
      (sendTo s (.buffer b) e).msg = { s.msg with headerSent := true } := by
  rw [sendTo_direct h.attached h.output]
  refine ⟨?_, rfl⟩
  obtain ⟨henc, hwire⟩ := h.wire enc rfl
  apply h.toChunking.streamed henc
  unfold pieces
  rw [h.headerSent_eq]
  simp [hwire, Chunk.encode]

/-- A chunk that keeps the text around it readable. -/
def Framable (w : Chunk × EncArg) : Prop :=
  match w.1 with
  | .str _ => w.2.encoding.keepsAscii = true
  | .buffer _ => True

def payload (w : Chunk × EncArg) : Bytes := w.1.encode w.2.encoding

/-- The encoding of the string that begins a chunk. A Buffer follows a string with its size. -/
def carrier (w : Chunk × EncArg) : Encoding :=
  match w.1 with
  | .str _ => w.2.encoding
  | .buffer _ => .utf8

/-- The encoding of the first string that is sent for a list of chunks. -/
def firstCarrier (ws : List (Chunk × EncArg)) : Option Encoding :=
  (ws.find? fun w => w.1.length ≠ 0).map carrier

theorem firstCarrier_cons (w : Chunk × EncArg) (ws : List (Chunk × EncArg)) :
    firstCarrier (w :: ws) = (firstCarrier [w]).or (firstCarrier ws) := by
  unfold firstCarrier
  by_cases hlen : w.1.length = 0
  · simp [hlen]
  · simp [hlen]

theorem firstCarrier_append (ws ws' : List (Chunk × EncArg)) :
    firstCarrier (ws ++ ws') = (firstCarrier ws).or (firstCarrier ws') := by
  induction ws with
  | nil => rfl
  | cons w ws ih =>
    rw [List.cons_append, firstCarrier_cons, ih, firstCarrier_cons w ws, Option.or_assoc]

theorem Streamed.bodySends {s : Endpoint Log} {sentIn : Option Encoding} {coding : Bytes}
    (h : Streamed s sentIn coding) {w : Chunk × EncArg} (hw : Framable w) :
    Streamed (sendAll s (bodySends s.msg w.1 w.2)) (sentIn.or (firstCarrier [w]))
        (coding ++ Lib.Chunked.chunk (payload w)) ∧
      ∃ b, (sendAll s (Http.bodySends s.msg w.1 w.2)).msg = { s.msg with headerSent := b } := by
  obtain ⟨chunk, e⟩ := w
  unfold Http.bodySends payload
  dsimp only
  by_cases hlen : chunk.length = 0
  · have hnil : chunk.encode e.encoding = [] := by
      cases chunk with
      | str t =>
        obtain rfl : t = [] := List.length_eq_zero_iff.mp hlen
        exact encode_nil _
      | buffer b => exact List.length_eq_zero_iff.mp hlen
    have hnone : firstCarrier [(chunk, e)] = none := by simp [firstCarrier, hlen]
    rw [if_pos (Or.inr hlen), hnil, hnone, Option.or_none]
    unfold Lib.Chunked.chunk
    rw [if_pos rfl, List.append_nil]
    exact ⟨h, s.msg.headerSent, rfl⟩
  · have hfirst : sentIn.or (firstCarrier [(chunk, e)]) =
        some (sentIn.getD (carrier (chunk, e))) := by
      cases sentIn with
      | none => simp [firstCarrier, hlen]
      | some enc => rfl
    rw [if_neg (by simp [h.hasBody, hlen]), if_pos h.chunkedEncoding, hfirst]
    cases chunk with
    | str t =>
      have ht : t ≠ [] := fun h => hlen (List.length_eq_zero_iff.mpr h)
      have hkeep : e.encoding.keepsAscii = true := hw
      obtain ⟨hs, hm⟩ := h.sendTo_str
        (hex (byteLength e.encoding t) ++ CRLF ++ t ++ CRLF) hkeep
      rw [encode_chunk hkeep ht] at hs
      exact ⟨hs, true, hm⟩
    | buffer b =>
      have hb : b ≠ [] := fun h => hlen (List.length_eq_zero_iff.mpr h)
      obtain ⟨h₁, hm₁⟩ := h.sendTo_str (e := none) (hex b.length ++ CRLF) rfl
      obtain ⟨h₂, hm₂⟩ := h₁.sendTo_buffer b none
      obtain ⟨h₃, hm₃⟩ := h₂.sendTo_str (e := none) CRLF rfl
      have hchunk : coding ++ Lib.Chunked.chunk b =
          coding ++ encode .utf8 (hex b.length ++ CRLF) ++ b ++ encode .utf8 CRLF := by
        unfold Lib.Chunked.chunk
        rw [if_neg hb, encode_append (by decide), encode_hex rfl, encode_CRLF rfl]
        simp only [List.append_assoc]
      refine ⟨?_, true, ?_⟩
      · rw [show (Chunk.buffer b).encode e.encoding = b from rfl, hchunk]
        exact h₃
      · rw [hm₂, hm₁] at hm₃
        exact hm₃

/-! ### Whole messages -/

def writeCalls (ws : List (Chunk × EncArg)) : List Call := ws.map fun w => .write w.1 w.2

theorem Streamed.writes {kind : Kind} {s : Endpoint Log} {sentIn : Option Encoding}
    {coding : Bytes} (h : Streamed s sentIn coding) {ws : List (Chunk × EncArg)}
    (hws : ∀ w ∈ ws, Framable w) :
    Streamed ((writeCalls ws).foldl kind.exec s) (sentIn.or (firstCarrier ws))
        (coding ++ (ws.map payload).flatMap Lib.Chunked.chunk) ∧
      ∃ b, ((writeCalls ws).foldl kind.exec s).msg = { s.msg with headerSent := b } := by
  induction ws generalizing s sentIn coding with
  | nil =>
    rw [show firstCarrier [] = none from rfl, Option.or_none, List.map_nil, List.flatMap_nil,
      List.append_nil]
    exact ⟨h, s.msg.headerSent, rfl⟩
  | cons w ws ih =>
    have hexec : kind.exec s (.write w.1 w.2) = sendAll s (Http.bodySends s.msg w.1 w.2) := by
      rw [kind.exec_write, kind.implicitTo_of_header h.header]
    obtain ⟨h₁, b₁, hm₁⟩ := h.bodySends (hws w List.mem_cons_self)
    rw [← hexec] at h₁ hm₁
    obtain ⟨h₂, b₂, hm₂⟩ := ih h₁ fun w hw => hws w (List.mem_cons_of_mem _ hw)
    rw [hm₁] at hm₂
    refine ⟨?_, b₂, hm₂⟩
    rw [firstCarrier_cons, ← Option.or_assoc, List.map_cons, List.flatMap_cons,
      ← List.append_assoc]
    exact h₂

def endPayload (data : Option Chunk) (e : EncArg) : Bytes :=
  (data.map fun chunk => payload (chunk, e)).getD []

/-- The data of `end` as a list of chunks. -/
def endChunks (data : Option Chunk) (e : EncArg) : List (Chunk × EncArg) :=
  data.toList.map fun chunk => (chunk, e)

/-- The encoding of the string with the header, if it is not sent before `end`. -/
def headerIn (sentIn : Option Encoding) (data : Option Chunk) (e : EncArg) : Encoding :=
  (sentIn.or (firstCarrier (endChunks data e))).getD .utf8

/-- The encoding of the string with the trailers: on the hot path they follow the data. -/
def trailerIn (sentIn : Option Encoding) (data : Option Chunk) (e : EncArg) : Encoding :=
  match sentIn, data with
  | none, some (.str (_ :: _)) => e.encoding
  | _, _ => .utf8

/-- What closes the coding, in any encoding of the data. -/
theorem encode_last {e : Encoding} (he : e.keepsAscii = true) (t : JSString) :
    encode e (js "0\r\n" ++ t) = hexText 0 ++ crlf ++ encode e t := by
  rw [encode_append (e.keepsAscii_ne_base64 he), encode_text he (isText_of_all (by decide))]
  rfl

theorem Chunking.trailer_CRLF {m : Outgoing} (h : Chunking m) :
    ∀ c ∈ m.trailer ++ CRLF, c < 0x80 := by
  intro c hc
  rcases List.mem_append.mp hc with hc | hc
  · exact h.trailerAscii c hc
  · exact (CRLF_text c hc).2

theorem encode_hotText {m : Outgoing} (h : Chunking m) (hsent : m.headerSent = false)
    {t : JSString} (ht : t ≠ []) {e : EncArg} (he : e.encoding.keepsAscii = true) :
    encode e.encoding (hotText m t e) = encode e.encoding m.headerText ++
      (Lib.Chunked.chunk (encode e.encoding t) ++
        (hexText 0 ++ crlf ++ encode e.encoding (m.trailer ++ CRLF))) := by
  have hne := e.encoding.keepsAscii_ne_base64 he
  have hsplit : hotText m t e = m.headerText ++
      ((hex (byteLength e.encoding t) ++ CRLF ++ t ++ CRLF) ++
        (js "0\r\n" ++ (m.trailer ++ CRLF))) := by
    rw [hotText_eq hsent]
    unfold pendingHeader chunkText lastChunk
    rw [hsent, if_neg Bool.false_ne_true, if_pos h.chunkedEncoding, if_pos h.chunkedEncoding]
    simp only [List.append_assoc]
  rw [hsplit, encode_append hne, encode_append hne, encode_chunk he ht, encode_last he]

/-- A string that `end` sends on the hot path. -/
theorem Streamed.hotPath_iff {s : Endpoint Log} {sentIn : Option Encoding} {coding : Bytes}
    (h : Streamed s sentIn coding) (data : Option Chunk) :
    hotPath s.msg data true = true ↔ sentIn = none ∧ ∃ c t, data = some (.str (c :: t)) := by
  unfold hotPath
  rw [h.headerSent_eq, h.attached, h.output]
  cases sentIn with
  | some enc => simp
  | none =>
    cases data with
    | none => simp
    | some chunk =>
      cases chunk with
      | buffer b => simp
      | str t =>
        cases t with
        | nil => simp
        | cons c t => simp

theorem trailerIn_eq_utf8 {sentIn : Option Encoding} {data : Option Chunk}
    (h : ¬ (sentIn = none ∧ ∃ c t, data = some (.str (c :: t)))) (e : EncArg) :
    trailerIn sentIn data e = .utf8 := by
  unfold trailerIn
  split
  · exact absurd ⟨rfl, _, _, rfl⟩ h
  · rfl

/-- `end` on a message that has sent a part of its body. -/
theorem Streamed.closeTo {s : Endpoint Log} {sentIn : Option Encoding} {coding : Bytes}
    (h : Streamed s sentIn coding) (data : Option Chunk) (e : EncArg)
    (hdata : ∀ chunk ∈ data, Framable (chunk, e)) :
    (headerIn sentIn data e).keepsAscii = true ∧ (trailerIn sentIn data e).keepsAscii = true ∧
      wireBytes (closeTo s data e).sock.writes =
        encode (headerIn sentIn data e) s.msg.headerText ++
          (coding ++ Lib.Chunked.chunk (endPayload data e) ++
            (hexText 0 ++ crlf ++ encode (trailerIn sentIn data e) (s.msg.trailer ++ CRLF))) := by
  have hend : endData s.msg data = data := by
    unfold endData
    rw [if_pos h.hasBody]
  unfold Http.closeTo
  rw [hend]
  split_ifs with hhot
  · obtain ⟨rfl, c, t, rfl⟩ := (h.hotPath_iff data).mp hhot
    have hkeep : e.encoding.keepsAscii = true := hdata (.str (c :: t)) rfl
    obtain ⟨hnil, hcoding⟩ := h.pending rfl
    have hheader : headerIn none (some (.str (c :: t))) e = e.encoding := rfl
    have htrailer : trailerIn none (some (.str (c :: t))) e = e.encoding := rfl
    rw [hheader, htrailer]
    refine ⟨hkeep, hkeep, ?_⟩
    dsimp only
    rw [hnil, hcoding, List.nil_append, wireBytes_cons, wireBytes_nil, List.append_nil,
      List.nil_append]
    exact encode_hotText h.toChunking h.headerSent_eq (List.cons_ne_nil c t) hkeep
  · rw [trailerIn_eq_utf8 (fun hnot => hhot ((h.hotPath_iff data).mpr hnot))]
    have hbody : ∃ s', sendAll s (endSends s.msg data e) = sendTo s'
          (.str (js "0\r\n" ++ s.msg.trailer ++ CRLF)) none ∧
        Streamed s' (sentIn.or (firstCarrier (endChunks data e)))
          (coding ++ Lib.Chunked.chunk (endPayload data e)) ∧
        ∃ b, s'.msg = { s.msg with headerSent := b } := by
      have hlast : lastSend s.msg = (.str (js "0\r\n" ++ s.msg.trailer ++ CRLF), none) := by
        unfold lastSend
        rw [if_pos h.chunkedEncoding]
      unfold endSends
      rw [hend, sendAll_append, hlast]
      cases data with
      | none =>
        refine ⟨s, rfl, ?_, s.msg.headerSent, rfl⟩
        rw [show Lib.Chunked.chunk (endPayload none e) = [] from rfl, List.append_nil,
          show firstCarrier (endChunks none e) = none from rfl, Option.or_none]
        exact h
      | some chunk =>
        obtain ⟨hs', b, hm⟩ := h.bodySends (w := (chunk, e)) (hdata chunk rfl)
        exact ⟨_, rfl, hs', b, hm⟩
    obtain ⟨s', hsend, hs', b, hm⟩ := hbody
    obtain ⟨hstr, hmsg⟩ := hs'.sendTo_str (e := none)
      (js "0\r\n" ++ s.msg.trailer ++ CRLF) rfl
    obtain ⟨hkeep, hwire⟩ := hstr.wire _ rfl
    rw [hmsg, hm] at hwire
    refine ⟨hkeep, rfl, ?_⟩
    rw [hsend, hwire, List.append_assoc (js _), encode_last rfl]
    rfl

/-- A receiver finds the header, the body and the trailers. -/
def Decodes (m : Outgoing) (s : Endpoint Log) (body : Bytes) : Prop :=
  ∃ coding, wireBytes s.sock.writes = ascii m.headerText ++ coding ∧
    Lib.Chunked.decode coding = some (body, ascii (m.trailer ++ CRLF))

structure Unsent (m : Outgoing) : Prop where
  attached : m.attached = true
  output : m.output = []
  finished : m.finished = false
  headerSent : m.headerSent = false

/-- The encoding of the string in which a header has been sent already. -/
def sentEarly (m : Outgoing) : Option Encoding := if m.headerSent then some .utf8 else none

theorem Unsent.streamed_headTo {m : Outgoing} (h : Unsent m) (firstLine : JSString)
    (lines : List Line) (hc : Chunking (headTo ⟨m, ⟨[]⟩⟩ firstLine lines).msg) :
    Streamed (headTo ⟨m, ⟨[]⟩⟩ firstLine lines)
      (sentEarly (headTo ⟨m, ⟨[]⟩⟩ firstLine lines).msg) [] := by
  obtain ⟨last, chunkedEncoding, shouldKeepAlive, hmsg⟩ := storeLines_msg m lines
  have ha : (storeLines m lines).msg.attached = true := by
    rw [hmsg]
    exact h.attached
  have ho : (storeLines m lines).msg.output = [] := by
    rw [hmsg]
    exact h.output
  unfold headTo at hc ⊢
  split_ifs at hc ⊢ with hexpect
  · have hsend := sendTo_direct (s := ⟨(storeHeader m firstLine lines).1, ⟨[]⟩⟩) ha ho
      (.str []) none
    rw [sendAll, List.foldl_cons, List.foldl_nil, hsend] at hc ⊢
    have hutf8 : Encoding.utf8.keepsAscii = true := rfl
    apply hc.streamed hutf8
    simp [pieces, storeHeader, Chunk.encode, EncArg.encoding, Outgoing.headerText]
  · refine ⟨hc, rfl, fun _ => ⟨rfl, rfl⟩, ?_⟩
    intro enc hnone
    cases hnone

theorem Unsent.streamed {kind : Kind} {m : Outgoing} (h : Unsent m)
    (hc : Chunking (kind.headed m)) :
    Streamed (kind.implicitTo ⟨m, ⟨[]⟩⟩) (sentEarly (kind.headed m)) [] := by
  unfold Kind.headed at hc ⊢
  cases hheader : m.header.isNone with
  | false =>
    rw [kind.implicitTo_of_header (s := ⟨m, ⟨[]⟩⟩) hheader] at hc ⊢
    have hnone : sentEarly m = none := by
      unfold sentEarly
      rw [h.headerSent]
      rfl
    rw [hnone]
    exact ⟨hc, h.headerSent, fun _ => ⟨rfl, rfl⟩, nofun⟩
  | true =>
    cases kind with
    | request firstLine =>
      have hto : (Kind.request firstLine).implicitTo ⟨m, ⟨[]⟩⟩ =
          headTo ⟨m, ⟨[]⟩⟩ firstLine (headersFor m none).lines := if_pos hheader
      rw [hto] at hc ⊢
      exact h.streamed_headTo _ _ hc
    | response =>
      have hfail : headFails m = false := by
        rw [Option.isNone_iff_eq_none] at hheader
        simp [headFails, hheader]
      have hto : Kind.response.implicitTo ⟨m, ⟨[]⟩⟩ = headTo ⟨m.withStatus m.statusCode, ⟨[]⟩⟩
          (statusLine m.statusCode none) (headersFor m none).lines := by
        unfold Kind.implicitTo implicitTo writeHeadTo
        dsimp only
        rw [if_pos hheader, hfail, if_neg Bool.false_ne_true]
      have hunsent : Unsent (m.withStatus m.statusCode) :=
        ⟨h.attached, h.output, h.finished, h.headerSent⟩
      rw [hto] at hc ⊢
      exact hunsent.streamed_headTo _ _ hc

/-- The bytes of a whole message. -/
theorem Unsent.wire {kind : Kind} {m : Outgoing} (h : Unsent m) (hc : Chunking (kind.headed m))
    {ws : List (Chunk × EncArg)} (hws : ∀ w ∈ ws, Framable w) {data : Option Chunk} {e : EncArg}
    (hdata : ∀ chunk ∈ data, Framable (chunk, e)) :
    let sentIn := (sentEarly (kind.headed m)).or (firstCarrier ws)
    (headerIn sentIn data e).keepsAscii = true ∧ (trailerIn sentIn data e).keepsAscii = true ∧
      wireBytes ((writeCalls ws ++ [Call.end data e]).foldl kind.exec ⟨m, ⟨[]⟩⟩).sock.writes =
        encode (headerIn sentIn data e) (kind.headed m).headerText ++
          ((ws.map payload ++ [endPayload data e]).flatMap Lib.Chunked.chunk ++
            (hexText 0 ++ crlf ++
              encode (trailerIn sentIn data e) ((kind.headed m).trailer ++ CRLF))) := by
  have hstart := h.streamed hc
  have himplicit : kind.implicitTo (kind.implicitTo ⟨m, ⟨[]⟩⟩) = kind.implicitTo ⟨m, ⟨[]⟩⟩ :=
    kind.implicitTo_of_header hstart.header
  have hfirst : ∀ c : Call, c.isBody = true →
      kind.exec ⟨m, ⟨[]⟩⟩ c = kind.exec (kind.implicitTo ⟨m, ⟨[]⟩⟩) c := by
    intro c hbody
    cases c with
    | writeContinue => cases hbody
    | writeHead statusCode reasonPhrase obj => cases hbody
    | write chunk encoding => rw [kind.exec_write, kind.exec_write, himplicit]
    | «end» data encoding =>
      rw [kind.exec_end (s := ⟨m, ⟨[]⟩⟩) h.finished, kind.exec_end hstart.finished, himplicit]
  have hcalls : (writeCalls ws ++ [Call.end data e]).foldl kind.exec ⟨m, ⟨[]⟩⟩ =
      (writeCalls ws ++ [Call.end data e]).foldl kind.exec (kind.implicitTo ⟨m, ⟨[]⟩⟩) := by
    cases ws with
    | nil => exact hfirst (.end data e) rfl
    | cons w ws =>
      show (writeCalls ws ++ [Call.end data e]).foldl kind.exec (kind.exec ⟨m, ⟨[]⟩⟩ _) = _
      rw [hfirst (.write w.1 w.2) rfl]
      rfl
  obtain ⟨hs, b, hm⟩ := @Streamed.writes kind _ _ _ hstart _ hws
  obtain ⟨hheader, htrailer, hwire⟩ := hs.closeTo data e hdata
  refine ⟨hheader, htrailer, ?_⟩
  rw [hcalls, List.foldl_append, List.foldl_cons, List.foldl_nil, kind.exec_end hs.finished,
    kind.implicitTo_of_header hs.header, endTo_of_header hs.finished hs.header]
  show wireBytes (Http.closeTo _ data e).sock.writes = _
  rw [hwire, hm]
  simp [Kind.headed, Outgoing.headerText]

/-- The text in one string with the data keeps its codes: the header, where a chunk is the first
thing to be sent after it, and the trailers, where they follow the data on the hot path. -/
def Legible (m : Outgoing) (ws : List (Chunk × EncArg)) (data : Option Chunk) (e : EncArg) :
    Prop :=
  m.headerSent = false →
    (∀ enc, firstCarrier (ws ++ endChunks data e) = some enc → Keeps enc m.headerText) ∧
    (firstCarrier ws = none → ∀ c t, data = some (.str (c :: t)) → Keeps e.encoding m.trailer)

theorem keeps_utf8 (t : JSString) : Keeps .utf8 t := trivial

theorem legible_iff (m : Outgoing) (ws : List (Chunk × EncArg)) (data : Option Chunk)
    (e : EncArg) :
    Legible m ws data e ↔
      Keeps (headerIn ((sentEarly m).or (firstCarrier ws)) data e) m.headerText ∧
        Keeps (trailerIn ((sentEarly m).or (firstCarrier ws)) data e) m.trailer := by
  unfold Legible headerIn sentEarly
  rw [firstCarrier_append]
  cases m.headerSent with
  | true =>
    rw [if_pos rfl, trailerIn_eq_utf8 (by simp)]
    exact iff_of_true nofun ⟨trivial, trivial⟩
  | false =>
    rw [if_neg Bool.false_ne_true, Option.none_or, forall_prop_of_true rfl]
    refine and_congr ?_ ?_
    · cases (firstCarrier ws).or (firstCarrier (endChunks data e)) with
      | none => simp [keeps_utf8]
      | some enc => simp
    · by_cases hhot : firstCarrier ws = none ∧ ∃ c t, data = some (.str (c :: t))
      · obtain ⟨hnone, c, t, rfl⟩ := hhot
        rw [hnone, show trailerIn none (some (.str (c :: t))) e = e.encoding from rfl]
        exact ⟨fun h => h rfl c t rfl, fun h _ _ _ _ => h⟩
      · rw [trailerIn_eq_utf8 hhot]
        exact iff_of_true (fun hnone c t hdata => absurd ⟨hnone, c, t, hdata⟩ hhot) trivial

theorem zero_notMem_CRLF : (0 : UInt16) ∉ CRLF := by decide

theorem keeps_CRLF (e : Encoding) (t : JSString) : Keeps e (t ++ CRLF) ↔ Keeps e t :=
  Keeps.congr (by simp [zero_notMem_CRLF])

/-- A message can be read exactly if the text in it keeps its codes. -/
theorem Unsent.decodes_iff {kind : Kind} {m : Outgoing} (h : Unsent m)
    (hc : Chunking (kind.headed m)) {ws : List (Chunk × EncArg)} (hws : ∀ w ∈ ws, Framable w)
    {data : Option Chunk} {e : EncArg} (hdata : ∀ chunk ∈ data, Framable (chunk, e)) :
    Decodes (kind.headed m) ((writeCalls ws ++ [Call.end data e]).foldl kind.exec ⟨m, ⟨[]⟩⟩)
        ((ws.map payload).flatten ++ endPayload data e) ↔
      Legible (kind.headed m) ws data e := by
  obtain ⟨hheader, htrailer, hwire⟩ := h.wire hc hws hdata
  have hdecode := fun tb =>
    Lib.Chunked.decode_chunks (ws.map payload ++ [endPayload data e]) tb
  have hbody : (ws.map payload ++ [endPayload data e]).flatten =
      (ws.map payload).flatten ++ endPayload data e := by simp
  rw [hbody] at hdecode
  rw [legible_iff, ← encode_eq_ascii_iff hheader hc.headerAscii, ← keeps_CRLF,
    ← encode_eq_ascii_iff htrailer hc.trailer_CRLF]
  unfold Decodes
  rw [hwire]
  constructor
  · rintro ⟨coding, hsplit, hcoding⟩
    obtain ⟨hhead, rfl⟩ := List.append_inj hsplit
      (by rw [length_encode_ascii hheader hc.headerAscii, length_ascii])
    rw [hdecode] at hcoding
    exact ⟨hhead, congrArg Prod.snd (Option.some.inj hcoding)⟩
  · rintro ⟨hhead, htail⟩
    rw [hhead, htail]
    exact ⟨_, rfl, hdecode _⟩

/-- A receiver reads the concatenation of the chunks, whether the last of them is passed to `end`
or written before it, exactly if the text in the strings with the data keeps its codes. -/
theorem chunked_decodes_iff {kind : Kind} {m : Outgoing} (h : Unsent m)
    (hc : Chunking (kind.headed m)) (ws : List (Chunk × EncArg)) (hws : ∀ w ∈ ws, Framable w)
    (data : Option Chunk) (e : EncArg) (hdata : ∀ chunk ∈ data, Framable (chunk, e)) :
    (Decodes (kind.headed m) ((writeCalls ws ++ [Call.end data e]).foldl kind.exec ⟨m, ⟨[]⟩⟩)
        ((ws.map payload).flatten ++ endPayload data e) ∧
      ∀ chunk ∈ data, Decodes (kind.headed m)
        ((writeCalls ws ++ [Call.write chunk e, Call.end none none]).foldl kind.exec ⟨m, ⟨[]⟩⟩)
        ((ws.map payload).flatten ++ endPayload data e)) ↔
      Legible (kind.headed m) ws data e := by
  rw [h.decodes_iff hc hws hdata]
  refine and_iff_left_of_imp ?_
  intro hlegible chunk hchunk
  have hws' : ∀ w ∈ ws ++ [(chunk, e)], Framable w := by
    intro w hw
    rcases List.mem_append.mp hw with hw | hw
    · exact hws w hw
    · rw [List.mem_singleton.mp hw]
      exact hdata chunk hchunk
  have hlast := (@Unsent.decodes_iff kind m h hc _ hws' none none (by simp)).mpr
  have hpayload : ((ws ++ [(chunk, e)]).map payload).flatten ++ endPayload none none =
      (ws.map payload).flatten ++ endPayload data e := by
    rw [Option.mem_def] at hchunk
    simp [endPayload, hchunk]
  have hcalls : writeCalls (ws ++ [(chunk, e)]) ++ [Call.end none none] =
      writeCalls ws ++ [Call.write chunk e, Call.end none none] := by
    simp [writeCalls]
  rw [hpayload, hcalls] at hlast
  apply hlast
  intro hsent
  obtain ⟨hheader, -⟩ := hlegible hsent
  rw [Option.mem_def.mp hchunk] at hheader
  exact ⟨by simpa [endChunks] using hheader, fun _ c t hdata => nomatch hdata⟩

/-- A response with a socket, to which trailers were added. -/
def trailed (trailer : JSString) : Outgoing :=
  { ServerResponse.new false true with attached := true, trailer := trailer }

theorem unsent_trailed (trailer : JSString) : Unsent (trailed trailer) := ⟨rfl, rfl, rfl, rfl⟩

theorem chunking_trailed {trailer : JSString} (h : ∀ c ∈ trailer, c < 0x80) :
    Chunking (Kind.response.headed (trailed trailer)) := by
  have hheader : ∀ c ∈ (Kind.response.headed (trailed [])).headerText, IsText c :=
    isText_of_all (by decide +kernel)
  exact ⟨⟨rfl, rfl, rfl, rfl⟩, rfl, rfl, fun c hc => (hheader c hc).2, h⟩

/-- A response with an implicit header, a string, a Buffer and more data in `end`. -/
theorem chunked_decodes_iff_response :
    Decodes (Kind.response.headed (trailed []))
      ((writeCalls [(.str (js "ab"), some (encName .ascii)), (.buffer [0xff], none)] ++
        [Call.end (some (.str [0xe9])) (some (encName .binary))]).foldl Kind.response.exec
          ⟨trailed [], ⟨[]⟩⟩)
      [0x61, 0x62, 0xff, 0xe9] := by
  have hlegible : Legible (Kind.response.headed (trailed []))
      [(.str (js "ab"), some (encName .ascii)), (.buffer [0xff], none)]
      (some (.str [0xe9])) (some (encName .binary)) := by
    intro _
    refine ⟨?_, nofun⟩
    intro enc henc
    cases henc
    show (0 : UInt16) ∉ (Kind.response.headed (trailed [])).headerText
    decide +kernel
  exact ((chunked_decodes_iff (unsent_trailed []) (chunking_trailed nofun) _
    (by simp [Framable]; rfl) _ _ (by simp [Framable]; rfl)).mpr hlegible).1

/-- With a NUL in the trailers `end('z', 'ascii')` sends a blank in its place, and
`write('z', 'ascii')` followed by `end()` the NUL. -/
theorem chunked_garbled :
    ¬ ∀ (kind : Kind) (m : Outgoing), Unsent m → Chunking (kind.headed m) →
      ∀ ws : List (Chunk × EncArg), (∀ w ∈ ws, Framable w) →
      ∀ data e, (∀ chunk ∈ data, Framable (chunk, e)) →
        Decodes (kind.headed m) ((writeCalls ws ++ [Call.end data e]).foldl kind.exec ⟨m, ⟨[]⟩⟩)
            ((ws.map payload).flatten ++ endPayload data e) ∧
          ∀ chunk ∈ data, Decodes (kind.headed m)
            ((writeCalls ws ++ [Call.write chunk e, Call.end none none]).foldl kind.exec
              ⟨m, ⟨[]⟩⟩)
            ((ws.map payload).flatten ++ endPayload data e) := by
  intro hall
  have hascii : ∀ c ∈ js "x: " ++ [0] ++ CRLF, c < 0x80 := by decide
  have hframable : ∀ chunk ∈ some (Chunk.str (js "z")),
      Framable (chunk, some (encName .ascii)) := by
    simp [Framable]
    rfl
  have hchunking := chunking_trailed hascii
  have hdecodes := (hall .response _ (unsent_trailed _) hchunking [] (by simp)
    (some (.str (js "z"))) (some (encName .ascii)) hframable).1
  have hlegible := ((unsent_trailed _).decodes_iff hchunking (by simp) hframable).mp hdecodes
  have hkeeps := (hlegible rfl).2 rfl _ _ rfl
  revert hkeeps
  decide

end NodeJS.Http
