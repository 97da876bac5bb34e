import NodeJS.Http.Wire

/-! Responses that may not have a body: what follows the header block on the wire. -/
namespace NodeJS.Http

/-- A response on which no method was called that sends or stores a header. -/
structure Fresh (m : Outgoing) : Prop where
  header : m.header = none
  headerSent : m.headerSent = false
  chunkedEncoding : m.chunkedEncoding = false
  finished : m.finished = false
  output : m.output = []

theorem fresh_new (head http11 : Bool) : Fresh (ServerResponse.new head http11) :=
  ⟨rfl, rfl, rfl, rfl, rfl⟩

theorem storeConnection_sent (st : Stored) :
    (storeConnection st).sentTransferEncodingHeader = st.sentTransferEncodingHeader := by
  unfold storeConnection
  split_ifs
  · rfl
  · rfl
  · rfl

theorem any_saysChunked {lines : List Line} (h : lines.any isTransferEncoding = false) :
    lines.any saysChunked = false := by
  rw [List.any_eq_false] at h ⊢
  intro line hline
  have := h line hline
  simp only [saysChunked]
  simp [this]

/-- Without a body only a line of the user turns chunked encoding on. -/
theorem storeLines_chunked {m : Outgoing} (hb : m.hasBody = false) (hc : m.chunkedEncoding = false)
    (lines : List Line) :
    (storeLines m lines).msg.chunkedEncoding = lines.any saysChunked := by
  have hstore : storeLines m lines = storeFraming (storeConnection (looped m lines)) := rfl
  obtain ⟨last, hmsg⟩ := storeConnection_msg (looped m lines)
  have hchunk : (storeConnection (looped m lines)).msg.chunkedEncoding = lines.any saysChunked := by
    rw [hmsg, looped_eq]
    simp only [hc, Bool.false_or]
  have hbody : (storeConnection (looped m lines)).msg.hasBody = false := by
    rw [hmsg, looped_eq]
    exact hb
  have hte : (storeConnection (looped m lines)).sentTransferEncodingHeader =
      lines.any isTransferEncoding := by
    rw [storeConnection_sent, looped_eq]
  rw [hstore]
  unfold storeFraming
  rw [hte, hbody, if_neg Bool.false_ne_true]
  split_ifs with h
  · rw [any_saysChunked h.2]
  · exact hchunk

/-- The fields of the message that the calls below depend on, once it has a header. -/
structure Headed (m : Outgoing) (chunked : Bool) : Prop where
  header : m.header.isSome
  hasBody : m.hasBody = false
  chunkedEncoding : m.chunkedEncoding = chunked

/-- Nothing but the header is on the wire. -/
structure Open (s : Endpoint Log) (chunked : Bool) : Prop extends Headed s.msg chunked where
  finished : s.msg.finished = false
  plain : Plain s.msg.output
  sent_eq : sent s ++ encode .utf8 (pendingHeader s.msg) = encode .utf8 s.msg.headerText

/-- `end` was called: the last chunk follows the header. -/
structure Closed (s : Endpoint Log) (chunked : Bool) : Prop extends Headed s.msg chunked where
  finished : s.msg.finished = true
  sent_eq : sent s = encode .utf8 s.msg.headerText ++
    if chunked then encode .utf8 (js "0\r\n" ++ s.msg.trailer ++ CRLF) else []

/-- A string without an encoding goes out after the header. -/
theorem Open.sendTo {s : Endpoint Log} {chunked : Bool} (h : Open s chunked) (t : JSString) :
    ∃ output, Plain output ∧
      (sendTo s (.str t) none).msg = { s.msg with output := output, headerSent := true } ∧
      sent (sendTo s (.str t) none) = encode .utf8 s.msg.headerText ++ encode .utf8 t := by
  obtain ⟨hplain, hbytes⟩ := sendTo_plain h.plain t
  obtain ⟨output, hmsg⟩ := sendTo_msg s (.str t) none
  rw [hmsg] at hplain
  refine ⟨output, hplain, hmsg, ?_⟩
  rw [hbytes, encode_append (by decide), ← List.append_assoc, h.sent_eq]

theorem Open.of_sent {s s' : Endpoint Log} {chunked : Bool} (h : Open s chunked)
    {output : List (Chunk × EncArg)} (hplain : Plain output)
    (hmsg : s'.msg = { s.msg with output := output, headerSent := true })
    (hbytes : sent s' = encode .utf8 s.msg.headerText) : Open s' chunked := by
  refine ⟨?_, ?_, ?_, ?_⟩
  · rw [hmsg]
    exact ⟨h.header, h.hasBody, h.chunkedEncoding⟩
  · rw [hmsg]
    exact h.finished
  · rw [hmsg]
    exact hplain
  · rw [hbytes, hmsg]
    exact List.append_nil _

/-- `writeHead` of a response that is still fresh. -/
theorem open_writeHeadTo {m : Outgoing} (h : Fresh m) (statusCode : ℕ)
    (reasonPhrase : Option JSString) (obj : Option HeadersArg)
    (hno : m.hasBody = false ∨ bodiless statusCode = true) :
    Open (writeHeadTo ⟨m, ⟨[]⟩⟩ statusCode reasonPhrase obj)
      ((headersFor m obj).lines.any saysChunked) := by
  have hfail : headFails m = false := by
    simp [headFails, h.header]
  have hbody : (m.withStatus statusCode).hasBody = false := by
    rcases hno with hno | hno
    · simp [Outgoing.withStatus, hno]
    · simp [Outgoing.withStatus, hno]
  have hchunk := storeLines_chunked hbody h.chunkedEncoding (headersFor m obj).lines
  obtain ⟨last, chunkedEncoding, shouldKeepAlive, hmsg⟩ :=
    storeLines_msg (m.withStatus statusCode) (headersFor m obj).lines
  have hopen : Open ⟨(storeHeader (m.withStatus statusCode) (statusLine statusCode reasonPhrase)
      (headersFor m obj).lines).1, ⟨[]⟩⟩ ((headersFor m obj).lines.any saysChunked) := by
    have houtput : (storeLines (m.withStatus statusCode) (headersFor m obj).lines).msg.output =
        [] := by
      rw [hmsg]
      exact h.output
    refine ⟨⟨rfl, ?_, hchunk⟩, ?_, ?_, ?_⟩
    · show (storeLines _ _).msg.hasBody = false
      rw [hmsg]
      exact hbody
    · show (storeLines _ _).msg.finished = false
      rw [hmsg]
      exact h.finished
    · show Plain (storeLines _ _).msg.output
      rw [houtput]
      exact plain_nil
    · show wireBytes (storeLines _ _).msg.output ++ _ = _
      rw [houtput]
      rfl
  unfold writeHeadTo headTo
  rw [hfail, if_neg Bool.false_ne_true]
  split_ifs
  · obtain ⟨output, hplain, hsend, hbytes⟩ := hopen.sendTo []
    rw [encode_nil, List.append_nil] at hbytes
    exact hopen.of_sent hplain hsend hbytes
  · exact hopen

theorem Open.write {s : Endpoint Log} {chunked : Bool} (h : Open s chunked) (chunk : Chunk)
    (encoding : EncArg) : exec s (.write chunk encoding) = s := by
  rw [exec_write, implicitTo_of_header (by simpa using h.header)]
  unfold bodySends
  rw [if_pos (Or.inl h.hasBody)]
  rfl

theorem Open.closeTo {s : Endpoint Log} {chunked : Bool} (h : Open s chunked) (data : Option Chunk)
    (encoding : EncArg) :
    closeTo s data encoding = Http.sendTo s
      (.str (if chunked then js "0\r\n" ++ s.msg.trailer ++ CRLF else [])) none := by
  have hdata : endData s.msg data = none := by
    unfold endData
    rw [h.hasBody, if_neg Bool.false_ne_true]
  unfold Http.closeTo endSends
  rw [hdata, if_neg (by simp [hotPath])]
  unfold lastSend
  rw [h.chunkedEncoding]
  cases chunked with
  | true => rfl
  | false => rfl

theorem Open.endTo {s : Endpoint Log} {chunked : Bool} (h : Open s chunked) (data : Option Chunk)
    (encoding : EncArg) : Closed (endTo s data encoding) chunked := by
  unfold Http.endTo
  rw [h.finished, if_neg Bool.false_ne_true, implicitTo_of_header (by simpa using h.header),
    h.closeTo]
  obtain ⟨output, -, hsend, hbytes⟩ := h.sendTo
    (if chunked then js "0\r\n" ++ s.msg.trailer ++ CRLF else [])
  refine ⟨?_, rfl, ?_⟩
  · rw [hsend]
    exact ⟨h.header, h.hasBody, h.chunkedEncoding⟩
  · show sent (Http.sendTo _ _ _) = _
    rw [hbytes, hsend]
    cases chunked with
    | true => rfl
    | false => rfl

theorem Closed.detach {s : Endpoint Log} {chunked : Bool} (h : Closed s chunked) :
    Closed { s with msg := detachSocket s.msg } chunked :=
  ⟨⟨h.header, h.hasBody, h.chunkedEncoding⟩, h.finished, h.sent_eq⟩

theorem Open.end {s : Endpoint Log} {chunked : Bool} (h : Open s chunked) (data : Option Chunk)
    (encoding : EncArg) : Closed (exec s (.end data encoding)) chunked := by
  rw [exec_end]
  split_ifs
  · exact (h.endTo data encoding).detach
  · exact h.endTo data encoding

theorem Closed.exec {s : Endpoint Log} {chunked : Bool} (h : Closed s chunked) {c : Call}
    (hc : c.isBody = true) : exec s c = s := by
  cases c with
  | writeContinue => cases hc
  | writeHead statusCode reasonPhrase obj => cases hc
  | write chunk encoding =>
    rw [exec_write, implicitTo_of_header (by simpa using h.header)]
    unfold bodySends
    rw [if_pos (Or.inl h.hasBody)]
    rfl
  | «end» data encoding =>
    rw [exec_end]
    unfold endFinishes Http.endTo
    rw [h.finished, if_pos rfl, Bool.not_true, Bool.false_and, Bool.false_and,
      if_neg Bool.false_ne_true]

/-! ### Every response -/

theorem foldl_closed {s : Endpoint Log} {chunked : Bool} (h : Closed s chunked)
    {calls : List Call} (hcalls : ∀ c ∈ calls, c.isBody = true) : calls.foldl exec s = s := by
  induction calls with
  | nil => rfl
  | cons c calls ih =>
    rw [List.foldl_cons, h.exec (hcalls c List.mem_cons_self)]
    exact ih fun c hc => hcalls c (List.mem_cons_of_mem _ hc)

/-- A run ends closed once `end` is called, and open until then. -/
theorem foldl_open {s : Endpoint Log} {chunked : Bool} (h : Open s chunked)
    {calls : List Call} (hcalls : ∀ c ∈ calls, c.isBody = true) :
    if calls.any Call.isEnd then Closed (calls.foldl exec s) chunked
      else Open (calls.foldl exec s) chunked := by
  induction calls with
  | nil => exact h
  | cons c calls ih =>
    have hrest : ∀ c ∈ calls, c.isBody = true := fun c hc => hcalls c (List.mem_cons_of_mem _ hc)
    have hc := hcalls c List.mem_cons_self
    rw [List.foldl_cons, List.any_cons]
    cases c with
    | writeContinue => cases hc
    | writeHead statusCode reasonPhrase obj => cases hc
    | write chunk encoding =>
      rw [h.write]
      exact ih hrest
    | «end» data encoding =>
      have hclosed := h.end data encoding
      rw [foldl_closed hclosed hrest]
      exact hclosed

/-- The arguments of `writeHead`. -/
structure Head where
  statusCode : ℕ
  reasonPhrase : Option JSString
  obj : Option HeadersArg

/-- The header that a response gets, if it gets one: from `writeHead` or, without it, from the
first call on the body. -/
def headOf (m : Outgoing) (head : Option Head) : Head := head.getD ⟨m.statusCode, none, none⟩

/-- A response on which `writeHead` is called or not, and then methods for the body. -/
def respond (m : Outgoing) (head : Option Head) (calls : List Call) : Endpoint Log :=
  (((head.map fun h => Call.writeHead h.statusCode h.reasonPhrase h.obj).toList) ++
    calls).foldl exec ⟨m, ⟨[]⟩⟩

theorem respond_cases {m : Outgoing} (h : Fresh m) (head : Option Head)
    (hno : m.hasBody = false ∨ bodiless (headOf m head).statusCode = true) {calls : List Call}
    (hcalls : ∀ c ∈ calls, c.isBody = true) :
    if calls.any Call.isEnd then
      Closed (respond m head calls) ((headersFor m (headOf m head).obj).lines.any saysChunked)
    else sent (respond m head calls) = [] ∨
      Open (respond m head calls) ((headersFor m (headOf m head).obj).lines.any saysChunked) := by
  have hopen := open_writeHeadTo h (headOf m head).statusCode (headOf m head).reasonPhrase
    (headOf m head).obj hno
  unfold respond
  cases head with
  | some head =>
    have hrun := foldl_open hopen hcalls
    rw [Option.map_some, Option.toList_some, List.singleton_append, List.foldl_cons, exec_writeHead]
    split_ifs at hrun ⊢ with hend
    · exact hrun
    · exact Or.inr hrun
  | none =>
    have himplicit : implicitTo ⟨m, ⟨[]⟩⟩ = writeHeadTo ⟨m, ⟨[]⟩⟩ m.statusCode none none := by
      unfold implicitTo
      rw [h.header]
      rfl
    rw [Option.map_none, Option.toList_none, List.nil_append]
    cases calls with
    | nil =>
      apply Or.inl
      show wireBytes m.output = []
      rw [h.output]
      rfl
    | cons c calls =>
      have hrun := foldl_open hopen hcalls
      rw [foldl_exec_implicitTo h.finished (hcalls c List.mem_cons_self), himplicit]
      split_ifs at hrun ⊢ with hend
      · exact hrun
      · exact Or.inr hrun

/-- Nothing follows the header block of a response without a body unless the user has asked for
chunked encoding: then `end` sends the last chunk. -/
theorem sent_prefix_header_iff {m : Outgoing} (h : Fresh m) (head : Option Head)
    (hno : m.hasBody = false ∨ bodiless (headOf m head).statusCode = true) (calls : List Call)
    (hcalls : ∀ c ∈ calls, c.isBody = true) :
    sent (respond m head calls) <+: encode .utf8 ((respond m head calls).msg.header.getD []) ↔
      ¬ (calls.any Call.isEnd = true ∧
        (headersFor m (headOf m head).obj).lines.any saysChunked = true) := by
  have hcases := respond_cases h head hno hcalls
  generalize respond m head calls = s at hcases ⊢
  have htext : s.msg.header.isSome = true → s.msg.header.getD [] = s.msg.headerText := by
    intro hs
    obtain ⟨t, ht⟩ := Option.isSome_iff_exists.mp hs
    unfold Outgoing.headerText
    rw [ht]
    rfl
  by_cases hend : calls.any Call.isEnd = true
  · rw [if_pos hend] at hcases
    rw [htext hcases.header, hcases.sent_eq]
    cases (headersFor m (headOf m head).obj).lines.any saysChunked with
    | false => simp
    | true =>
      have hlast : encode .utf8 (js "0\r\n" ++ s.msg.trailer ++ CRLF) ≠ [] :=
        encode_ne_nil (by decide) (by simp [js])
      simp only [hend, if_true, and_self, not_true, iff_false]
      intro hpre
      have hlen := hpre.length_le
      rw [List.length_append] at hlen
      exact hlast (List.length_eq_zero_iff.mp (by omega))
  · rw [if_neg hend] at hcases
    constructor
    · intro _ hand
      exact hend hand.1
    · intro _
      rcases hcases with hnil | hopen
      · rw [hnil]
        exact List.nil_prefix
      · rw [htext hopen.header, ← hopen.sent_eq]
        exact List.prefix_append _ _

/-- A response to `HEAD` with a body that is left out. -/
theorem sent_prefix_header_head :
    Fresh (ServerResponse.new true true) ∧
      sent (respond (ServerResponse.new true true) none
        [.write (.str (js "a")) none, .end none none])
        <+: encode .utf8 ((respond (ServerResponse.new true true) none
          [.write (.str (js "a")) none, .end none none]).msg.header.getD []) :=
  ⟨fresh_new true true, (sent_prefix_header_iff (fresh_new true true) none (Or.inl rfl) _
    (by decide)).mpr (by decide)⟩

/-- `Transfer-Encoding: chunked` in the answer to `HEAD`: `0\r\n\r\n` is sent. -/
theorem not_sent_prefix_header :
    ¬ ∀ (m : Outgoing), Fresh m → ∀ (head : Option Head),
      (m.hasBody = false ∨ bodiless (headOf m head).statusCode = true) → ∀ (calls : List Call),
      (∀ c ∈ calls, c.isBody = true) →
      sent (respond m head calls) <+:
        encode .utf8 ((respond m head calls).msg.header.getD []) := by
  intro hall
  have hpre := hall { ServerResponse.new true true with attached := true } ⟨rfl, rfl, rfl, rfl, rfl⟩
    (some ⟨200, none, some (.object [(js "Transfer-Encoding", .one (js "chunked"))])⟩) (Or.inl rfl)
    [.end none none] (by decide)
  revert hpre
  decide +kernel

end NodeJS.Http
