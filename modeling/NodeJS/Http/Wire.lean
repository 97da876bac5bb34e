import NodeJS.Http.Outgoing

/-! What the methods of a message do to a connection that is always writable and keeps a log of
the calls to its `write`. -/
namespace NodeJS.Http

structure Log where
  writes : List (Chunk × EncArg)

instance : Connection Log where
  writable _ := true
  write l c e := (.ok true, ⟨l.writes ++ [(c, e)]⟩)

def wireBytes (writes : List (Chunk × EncArg)) : Bytes :=
  writes.flatMap fun w => w.1.encode w.2.encoding

@[simp] theorem wireBytes_nil : wireBytes [] = [] := rfl

@[simp] theorem wireBytes_cons (w : Chunk × EncArg) (ws : List (Chunk × EncArg)) :
    wireBytes (w :: ws) = w.1.encode w.2.encoding ++ wireBytes ws := by
  simp [wireBytes]

@[simp] theorem wireBytes_append (ws ws' : List (Chunk × EncArg)) :
    wireBytes (ws ++ ws') = wireBytes ws ++ wireBytes ws' := by
  simp [wireBytes]

theorem bind_ok {α β : Type} {x : M Log α} {f : α → M Log β} {s s' : Endpoint Log} {a : α}
    (h : x s = .ok a s') : (x >>= f) s = f a s' := by
  simp only [bind, EStateM.bind, h]

/-- `_writeRaw` -/
def raw (s : Endpoint Log) (data : Chunk) (encoding : EncArg) : Endpoint Log :=
  if s.msg.attached then
    ⟨{ s.msg with output := [] }, ⟨s.sock.writes ++ s.msg.output ++ [(data, encoding)]⟩⟩
  else { s with msg := { s.msg with output := buffer s.msg.output data encoding } }

theorem writeThrough_log (data : Chunk) (encoding : EncArg) (output : List (Chunk × EncArg))
    (s : Endpoint Log) (h : s.msg.output = output) :
    writeThrough data encoding output s =
      .ok true ⟨{ s.msg with output := [] },
        ⟨s.sock.writes ++ output ++ [(data, encoding)]⟩⟩ := by
  induction output generalizing s with
  | nil =>
    obtain ⟨m, l⟩ := s
    have hwrite : connectionWrite data encoding (⟨m, l⟩ : Endpoint Log) =
        .ok true ⟨m, ⟨l.writes ++ [(data, encoding)]⟩⟩ := rfl
    simp only [writeThrough, hwrite, List.append_nil]
    rw [← h]
  | cons w output ih =>
    have hnext := ih ⟨{ s.msg with output := output }, ⟨s.sock.writes ++ [w]⟩⟩ rfl
    simp only [List.append_assoc, List.singleton_append] at hnext ⊢
    exact hnext

theorem writeRaw_log (data : Chunk) (encoding : EncArg) (s : Endpoint Log) :
    writeRaw data encoding s = .ok s.msg.attached (raw s data encoding) := by
  have hrun : writeRaw data encoding s =
      (if (s.msg.attached && true) = true then writeThrough data encoding s.msg.output
        else do
          bufferData data encoding
          return false) s := rfl
  unfold raw
  by_cases h : s.msg.attached = true
  · rw [hrun, h, Bool.and_self, if_pos rfl, if_pos rfl, writeThrough_log _ _ _ _ rfl]
  · rw [Bool.not_eq_true] at h
    rw [hrun, h, Bool.false_and, if_neg Bool.false_ne_true, if_neg Bool.false_ne_true]
    rfl

/-- `_send` -/
def sendTo (s : Endpoint Log) (data : Chunk) (encoding : EncArg) : Endpoint Log :=
  if s.msg.headerSent then raw s data encoding
  else
    match data with
    | .str t =>
      raw { s with msg := { s.msg with headerSent := true } } (.str (s.msg.headerText ++ t))
        encoding
    | .buffer b =>
      raw { s with msg := { s.msg with
          output := (.str s.msg.headerText, some (encName .ascii)) :: s.msg.output
          headerSent := true } }
        (.buffer b) encoding

theorem send_log (data : Chunk) (encoding : EncArg) (s : Endpoint Log) :
    send data encoding s = .ok s.msg.attached (sendTo s data encoding) := by
  unfold sendTo
  simp only [send, getMsg, bind, EStateM.bind]
  split_ifs with h
  · exact writeRaw_log data encoding s
  · cases data with
    | str t => exact writeRaw_log _ _ _
    | buffer b => exact writeRaw_log _ _ _

/-- What `_send` puts before a string. -/
def pendingHeader (m : Outgoing) : JSString := if m.headerSent then [] else m.headerText

/-- All bytes of a message so far: those the socket has and those that wait for it. -/
def sent (s : Endpoint Log) : Bytes := wireBytes (s.sock.writes ++ s.msg.output)

/-- What a message that owns its socket writes for one `_send`. -/
def pieces (m : Outgoing) (data : Chunk) (encoding : EncArg) : List (Chunk × EncArg) :=
  if m.headerSent then [(data, encoding)]
  else
    match data with
    | .str t => [(.str (m.headerText ++ t), encoding)]
    | .buffer b => [(.str m.headerText, some (encName .ascii)), (.buffer b, encoding)]

theorem sendTo_direct {s : Endpoint Log} (ha : s.msg.attached = true) (ho : s.msg.output = [])
    (data : Chunk) (encoding : EncArg) :
    sendTo s data encoding =
      ⟨{ s.msg with headerSent := true }, ⟨s.sock.writes ++ pieces s.msg data encoding⟩⟩ := by
  obtain ⟨⟨output, last, chunkedEncoding, shouldKeepAlive, useChunked, hasBody, trailer, finished,
    header, headerSent, headers, status, expectContinue, sent100, attached⟩, l⟩ := s
  obtain rfl : attached = true := ha
  obtain rfl : output = [] := ho
  unfold sendTo pieces raw
  cases headerSent with
  | true => simp
  | false =>
    cases data with
    | str t => simp
    | buffer b => simp [Outgoing.headerText]

/-- Nothing but strings without an encoding waits for the socket. -/
def Plain (output : List (Chunk × EncArg)) : Prop := ∀ w ∈ output, ∃ t, w = (.str t, none)

theorem plain_nil : Plain [] := by
  intro w hw
  cases hw

theorem buffer_plain {output : List (Chunk × EncArg)} (h : Plain output) (t : JSString) :
    Plain (buffer output (.str t) none) ∧
      wireBytes (buffer output (.str t) none) = wireBytes output ++ encode .utf8 t := by
  unfold buffer
  by_cases ht : (Chunk.str t).length = 0
  · rw [if_pos ht]
    obtain rfl : t = [] := List.length_eq_zero_iff.mp ht
    exact ⟨h, by simp⟩
  · rw [if_neg ht]
    rcases List.eq_nil_or_concat' output with rfl | ⟨init, w, rfl⟩
    · constructor
      · intro w hw
        exact ⟨t, by simpa using hw⟩
      · simp [Chunk.encode, EncArg.encoding]
    · obtain ⟨u, rfl⟩ := h w (by simp)
      simp only [List.getLast?_append, List.getLast?_singleton, Option.some_or, or_true, if_true,
        List.dropLast_concat]
      constructor
      · intro w hw
        rcases List.mem_append.mp hw with hw | hw
        · exact h w (List.mem_append_left _ hw)
        · exact ⟨u ++ t, by simpa using hw⟩
      · have henc : encode .utf8 (u ++ t) = encode .utf8 u ++ encode .utf8 t :=
          encode_append (by decide) u t
        simp only [wireBytes_append, wireBytes_cons, wireBytes_nil, List.append_nil,
          List.append_assoc]
        congr 1

theorem raw_plain {s : Endpoint Log} (h : Plain s.msg.output) (t : JSString) :
    Plain (raw s (.str t) none).msg.output ∧
      sent (raw s (.str t) none) = sent s ++ encode .utf8 t := by
  unfold raw sent
  split_ifs
  · refine ⟨plain_nil, ?_⟩
    simp [Chunk.encode, EncArg.encoding]
  · obtain ⟨hplain, hbytes⟩ := buffer_plain h t
    refine ⟨hplain, ?_⟩
    simp [hbytes]

theorem sendTo_plain {s : Endpoint Log} (h : Plain s.msg.output) (t : JSString) :
    Plain (sendTo s (.str t) none).msg.output ∧
      sent (sendTo s (.str t) none) = sent s ++ encode .utf8 (pendingHeader s.msg ++ t) := by
  unfold sendTo pendingHeader
  split_ifs
  · exact raw_plain h t
  · obtain ⟨hplain, hbytes⟩ := raw_plain
      (show Plain ({ s with msg := { s.msg with headerSent := true } } : Endpoint Log).msg.output
        from h) (s.msg.headerText ++ t)
    exact ⟨hplain, hbytes⟩

def sendAll (s : Endpoint Log) (l : List (Chunk × EncArg)) : Endpoint Log :=
  l.foldl (fun s x => sendTo s x.1 x.2) s

/-- `_storeHeader` -/
def headTo (s : Endpoint Log) (firstLine : JSString) (lines : List Line) : Endpoint Log :=
  sendAll { s with msg := (storeHeader s.msg firstLine lines).1 }
    (if (storeHeader s.msg firstLine lines).2 then [(.str [], none)] else [])

theorem sendHeader_log (firstLine : JSString) (lines : List Line) (s : Endpoint Log) :
    sendHeader firstLine lines s = .ok () (headTo s firstLine lines) := by
  unfold headTo
  simp only [sendHeader, getMsg, modifyMsg, bind, EStateM.bind]
  split_ifs with h
  · exact bind_ok (send_log _ _ _)
  · rfl

/-! ### `writeHead` -/

/-- The headers `writeHead` passes to `_storeHeader`. -/
def headersFor (m : Outgoing) (obj : Option HeadersArg) : Headers :=
  match obj, m.headers with
  | some obj, some headers => mergeHeaders (headers.map fun e => e.2) obj
  | some obj, none => obj.headers
  | none, headers => (headers.getD []).map fun e => e.2

/-- The fields `writeHead` sets before it stores the header. -/
def Outgoing.withStatus (m : Outgoing) (statusCode : ℕ) : Outgoing :=
  { m with
    statusCode := statusCode
    hasBody := m.hasBody && !bodiless statusCode
    shouldKeepAlive := m.shouldKeepAlive && !(m.expectContinue && !m.sent100) }

/-- `writeHead` throws where headers set before would be rendered a second time. -/
def headFails (m : Outgoing) : Bool := m.header.isSome && m.headers.isSome

def writeHeadTo (s : Endpoint Log) (statusCode : ℕ) (reasonPhrase : Option JSString)
    (obj : Option HeadersArg) : Endpoint Log :=
  if headFails s.msg then { s with msg := { s.msg with statusCode := statusCode } }
  else
    headTo { s with msg := s.msg.withStatus statusCode } (statusLine statusCode reasonPhrase)
      (headersFor s.msg obj).lines

theorem writeHead_log (statusCode : ℕ) (reasonPhrase : Option JSString) (obj : Option HeadersArg)
    (s : Endpoint Log) :
    writeHead statusCode reasonPhrase obj s =
      if headFails s.msg then .error .renderAfterSent (writeHeadTo s statusCode reasonPhrase obj)
      else .ok () (writeHeadTo s statusCode reasonPhrase obj) := by
  obtain ⟨⟨output, last, chunkedEncoding, shouldKeepAlive, useChunked, hasBody, trailer, finished,
    header, headerSent, headers, status, expectContinue, sent100, attached⟩, l⟩ := s
  cases headers with
  | none =>
    have hfail : (header.isSome && (none : Option (List (JSString × JSString × Value))).isSome) =
        false := Bool.and_false _
    unfold writeHeadTo headFails
    dsimp only
    rw [hfail, if_neg Bool.false_ne_true, if_neg Bool.false_ne_true]
    cases obj with
    | none => exact sendHeader_log _ _ _
    | some obj => exact sendHeader_log _ _ _
  | some headers =>
    cases header with
    | none =>
      cases obj with
      | none => exact sendHeader_log _ _ _
      | some obj => exact sendHeader_log _ _ _
    | some header =>
      cases obj with
      | none => rfl
      | some obj => rfl

/-! ### The body -/

theorem raw_msg (s : Endpoint Log) (data : Chunk) (encoding : EncArg) :
    ∃ output, (raw s data encoding).msg = { s.msg with output := output } := by
  unfold raw
  split_ifs
  · exact ⟨_, rfl⟩
  · exact ⟨_, rfl⟩

/-- Sending touches `output` and `_headerSent` only. -/
theorem sendTo_msg (s : Endpoint Log) (data : Chunk) (encoding : EncArg) :
    ∃ output, (sendTo s data encoding).msg =
      { s.msg with output := output, headerSent := true } := by
  unfold sendTo
  split_ifs with h
  · obtain ⟨output, hm⟩ := raw_msg s data encoding
    exact ⟨output, by rw [hm, ← h]⟩
  · cases data with
    | str t => exact raw_msg _ _ _
    | buffer b => exact raw_msg _ _ _

theorem sendAll_msg (s : Endpoint Log) (l : List (Chunk × EncArg)) :
    ∃ output headerSent, (sendAll s l).msg =
      { s.msg with output := output, headerSent := headerSent } := by
  induction l generalizing s with
  | nil => exact ⟨s.msg.output, s.msg.headerSent, rfl⟩
  | cons x l ih =>
    obtain ⟨output, h₁⟩ := sendTo_msg s x.1 x.2
    obtain ⟨output', headerSent, h₂⟩ := ih (sendTo s x.1 x.2)
    refine ⟨output', headerSent, ?_⟩
    show (sendAll (sendTo s x.1 x.2) l).msg = _
    rw [h₂, h₁]

theorem headTo_header (s : Endpoint Log) (firstLine : JSString) (lines : List Line) :
    (headTo s firstLine lines).msg.header = (storeHeader s.msg firstLine lines).1.header := by
  unfold headTo
  obtain ⟨output, headerSent, h⟩ :=
    sendAll_msg { s with msg := (storeHeader s.msg firstLine lines).1 }
      (if (storeHeader s.msg firstLine lines).2 then [(.str [], none)] else [])
  rw [h]

theorem headTo_finished (s : Endpoint Log) (firstLine : JSString) (lines : List Line) :
    (headTo s firstLine lines).msg.finished = s.msg.finished := by
  unfold headTo
  obtain ⟨output, headerSent, h⟩ :=
    sendAll_msg { s with msg := (storeHeader s.msg firstLine lines).1 }
      (if (storeHeader s.msg firstLine lines).2 then [(.str [], none)] else [])
  obtain ⟨last, chunkedEncoding, shouldKeepAlive, hmsg⟩ := storeLines_msg s.msg lines
  rw [h]
  show (storeLines s.msg lines).msg.finished = s.msg.finished
  rw [hmsg]

/-- `_implicitHeader`, where it is called. -/
def implicitTo (s : Endpoint Log) : Endpoint Log :=
  if s.msg.header.isNone then writeHeadTo s s.msg.statusCode none none else s

theorem implicitHeader_log (s : Endpoint Log) :
    implicitHeader s = .ok () (implicitTo s) := by
  have hrun : implicitHeader s =
      (if s.msg.header.isNone = true then writeHead s.msg.statusCode none none
        else pure ()) s := rfl
  unfold implicitTo
  rw [hrun]
  split_ifs with h
  · have hfail : headFails s.msg = false := by
      rw [Option.isNone_iff_eq_none] at h
      simp [headFails, h]
    rw [writeHead_log, hfail, if_neg Bool.false_ne_true]
  · rfl

theorem implicitTo_header (s : Endpoint Log) : (implicitTo s).msg.header.isNone = false := by
  unfold implicitTo
  split_ifs with h
  · have hfail : headFails s.msg = false := by
      rw [Option.isNone_iff_eq_none] at h
      simp [headFails, h]
    unfold writeHeadTo
    rw [hfail, if_neg Bool.false_ne_true, headTo_header]
    rfl
  · rwa [Bool.not_eq_true] at h

theorem implicitTo_finished (s : Endpoint Log) :
    (implicitTo s).msg.finished = s.msg.finished := by
  unfold implicitTo writeHeadTo
  split_ifs
  · rfl
  · rw [headTo_finished]
    rfl
  · rfl

theorem implicitTo_of_header {s : Endpoint Log} (h : s.msg.header.isNone = false) :
    implicitTo s = s := by
  unfold implicitTo
  rw [h, if_neg Bool.false_ne_true]

/-- The calls of `_send` in `write`, once there is a header. -/
def bodySends (m : Outgoing) (chunk : Chunk) (encoding : EncArg) : List (Chunk × EncArg) :=
  if m.hasBody = false ∨ chunk.length = 0 then []
  else if m.chunkedEncoding then
    match chunk with
    | .str s => [(.str (hex (byteLength encoding.encoding s) ++ CRLF ++ s ++ CRLF), encoding)]
    | .buffer b => [(.str (hex b.length ++ CRLF), none), (.buffer b, none), (.str CRLF, none)]
  else [(chunk, encoding)]

theorem write_log (chunk : Chunk) (encoding : EncArg) (s : Endpoint Log) :
    ∃ r, write chunk encoding s =
      .ok r (sendAll (implicitTo s) (bodySends (implicitTo s).msg chunk encoding)) := by
  unfold write
  rw [bind_ok (implicitHeader_log s)]
  generalize implicitTo s = s
  rw [bind_ok (show getMsg s = .ok s.msg s from rfl)]
  unfold bodySends
  by_cases hb : s.msg.hasBody = false
  · rw [hb]
    exact ⟨true, rfl⟩
  · rw [Bool.not_eq_false] at hb
    rw [hb]
    by_cases hlen : chunk.length = 0
    · rw [if_pos (Or.inr hlen)]
      simp only [Bool.not_true, Bool.false_eq_true, if_false, hlen, if_true]
      exact ⟨false, rfl⟩
    · simp only [Bool.not_true, Bool.false_eq_true, if_false, hlen, Bool.true_eq_false, or_self]
      by_cases hc : s.msg.chunkedEncoding = true
      · rw [if_pos hc, if_pos hc]
        cases chunk with
        | str t => exact ⟨_, send_log _ _ _⟩
        | buffer b =>
          dsimp only
          rw [bind_ok (send_log _ _ _), bind_ok (send_log _ _ _)]
          exact ⟨_, send_log _ _ _⟩
      · rw [if_neg hc, if_neg hc]
        exact ⟨_, send_log _ _ _⟩

def chunkText (m : Outgoing) (s : JSString) (e : EncArg) : JSString :=
  if m.chunkedEncoding then hex (byteLength e.encoding s) ++ CRLF ++ s ++ CRLF else s

theorem bodySends_str {m : Outgoing} (hb : m.hasBody = true) {s : JSString} (hs : s ≠ [])
    (e : EncArg) : bodySends m (.str s) e = [(.str (chunkText m s e), e)] := by
  have hlen : ¬ (Chunk.str s).length = 0 := fun h => hs (List.length_eq_zero_iff.mp h)
  unfold bodySends chunkText
  rw [if_neg (by simp [hb, hlen])]
  split_ifs
  · rfl
  · rfl

/-- The data `end` looks at: none for a message without a body. -/
def endData (m : Outgoing) (data : Option Chunk) : Option Chunk := if m.hasBody then data else none

def lastSend (m : Outgoing) : Chunk × EncArg :=
  if m.chunkedEncoding then (.str (js "0\r\n" ++ m.trailer ++ CRLF), none) else (.str [], none)

def lastChunk (m : Outgoing) : JSString := js "0\r\n" ++ m.trailer ++ CRLF

theorem lastSend_eq (m : Outgoing) :
    lastSend m = (.str (if m.chunkedEncoding then lastChunk m else []), none) := by
  unfold lastSend
  split_ifs
  · rfl
  · rfl

/-- The hot path sends the strings of the plain path in one. -/
theorem hotText_eq {m : Outgoing} (hsent : m.headerSent = false) (s : JSString) (e : EncArg) :
    hotText m s e = pendingHeader m ++ chunkText m s e ++
      if m.chunkedEncoding then lastChunk m else [] := by
  unfold hotText pendingHeader chunkText lastChunk
  rw [hsent, if_neg Bool.false_ne_true, show js "\r\n0\r\n" = CRLF ++ js "0\r\n" from by decide]
  split_ifs
  · simp
  · simp

/-- The calls of `_send` in `end` outside the hot path. -/
def endSends (m : Outgoing) (data : Option Chunk) (encoding : EncArg) : List (Chunk × EncArg) :=
  (match endData m data with
    | some chunk => bodySends m chunk encoding
    | none => []) ++ [lastSend m]

/-- `end` up to `this.finished = true`, on a message that has a header and is not finished. -/
def closeTo (s : Endpoint Log) (data : Option Chunk) (encoding : EncArg) : Endpoint Log :=
  if hotPath s.msg (endData s.msg data) true then
    match endData s.msg data with
    | some (.str t) =>
      ⟨{ s.msg with headerSent := true },
        ⟨s.sock.writes ++ [(.str (hotText s.msg t encoding), encoding)]⟩⟩
    | _ => s
  else sendAll s (endSends s.msg data encoding)

def endTo (s : Endpoint Log) (data : Option Chunk) (encoding : EncArg) : Endpoint Log :=
  if s.msg.finished then s
  else
    { closeTo (implicitTo s) data encoding with
      msg := { (closeTo (implicitTo s) data encoding).msg with finished := true } }

def endFinishes (s : Endpoint Log) (data : Option Chunk) (encoding : EncArg) : Bool :=
  !s.msg.finished && (endTo s data encoding).msg.output.isEmpty &&
    (endTo s data encoding).msg.attached

theorem endSend_log (s : Endpoint Log) :
    ∃ r, endSend s = .ok r (sendAll s [lastSend s.msg]) := by
  have hrun : endSend s =
      (if s.msg.chunkedEncoding = true then send (.str (js "0\r\n" ++ s.msg.trailer ++ CRLF)) none
        else send (.str []) none) s := rfl
  rw [hrun]
  unfold lastSend
  split_ifs
  · exact ⟨_, send_log _ _ _⟩
  · exact ⟨_, send_log _ _ _⟩

theorem sendAll_append (s : Endpoint Log) (l l' : List (Chunk × EncArg)) :
    sendAll s (l ++ l') = sendAll (sendAll s l) l' := by
  simp [sendAll]

theorem lastSend_sendAll (s : Endpoint Log) (l : List (Chunk × EncArg)) :
    lastSend (sendAll s l).msg = lastSend s.msg := by
  obtain ⟨output, headerSent, h⟩ := sendAll_msg s l
  rw [h]
  rfl

/-- `write`, then what closes the message. -/
theorem write_endSend_log (s : Endpoint Log) (h : s.msg.header.isNone = false) (chunk : Chunk)
    (encoding : EncArg) :
    ∃ r, (write chunk encoding >>= fun _ => endSend) s =
      .ok r (sendAll s (bodySends s.msg chunk encoding ++ [lastSend s.msg])) := by
  obtain ⟨r, hr⟩ := write_log chunk encoding s
  rw [implicitTo_of_header h] at hr
  obtain ⟨r', hr'⟩ := endSend_log (sendAll s (bodySends s.msg chunk encoding))
  refine ⟨r', ?_⟩
  rw [bind_ok hr, hr', sendAll_append, lastSend_sendAll]

theorem bodySends_nil (m : Outgoing) (encoding : EncArg) :
    bodySends m (.str []) encoding = [] := by
  unfold bodySends
  exact if_pos (Or.inr rfl)

theorem endBody_log (s : Endpoint Log) (h : s.msg.header.isNone = false) (data : Option Chunk)
    (encoding : EncArg) :
    ∃ r, endBody (endData s.msg data) encoding s = .ok r (closeTo s data encoding) := by
  unfold endBody closeTo endSends
  rw [bind_ok (show getMsg s = .ok s.msg s from rfl)]
  cases hd : endData s.msg data with
  | none =>
    rw [if_neg (by simp [hotPath])]
    exact endSend_log s
  | some chunk =>
    cases chunk with
    | buffer b =>
      rw [if_neg (by simp [hotPath])]
      exact write_endSend_log s h _ _
    | str t =>
      dsimp only
      rw [bind_ok (show writable s = .ok true s from rfl)]
      by_cases hhot : hotPath s.msg (some (.str t)) true = true
      · rw [if_pos hhot, if_pos hhot]
        exact ⟨true, rfl⟩
      · rw [if_neg hhot, if_neg hhot]
        by_cases ht : t.length > 0
        · rw [if_pos ht]
          exact write_endSend_log s h _ _
        · rw [if_neg ht]
          obtain rfl : t = [] := List.length_eq_zero_iff.mp (by omega)
          rw [bodySends_nil]
          exact endSend_log s

theorem end_log (data : Option Chunk) (encoding : EncArg) (s : Endpoint Log) :
    ∃ ret, «end» data encoding s =
      if s.msg.finished ∨ (endTo s data encoding).msg.output.isEmpty = false ∨
          (endTo s data encoding).msg.attached then
        .ok (ret, endFinishes s data encoding) (endTo s data encoding)
      else .error .noConnection (endTo s data encoding) := by
  unfold «end»
  rw [bind_ok (show getMsg s = .ok s.msg s from rfl)]
  by_cases hf : s.msg.finished = true
  · refine ⟨false, ?_⟩
    unfold endFinishes endTo
    rw [if_pos hf, if_pos hf, if_pos (Or.inl hf), hf]
    rfl
  · rw [if_neg hf, bind_ok (implicitHeader_log s)]
    rw [bind_ok (show getMsg (implicitTo s) = .ok (implicitTo s).msg (implicitTo s) from rfl)]
    obtain ⟨r, hr⟩ := endBody_log (implicitTo s) (implicitTo_header s) data encoding
    rw [show (if (implicitTo s).msg.hasBody = true then data else none) =
      endData (implicitTo s).msg data from rfl, bind_ok hr]
    have hto : endTo s data encoding = { closeTo (implicitTo s) data encoding with
        msg := { (closeTo (implicitTo s) data encoding).msg with finished := true } } := by
      unfold endTo
      rw [if_neg hf]
    rw [bind_ok (show modifyMsg (fun m => { m with finished := true })
      (closeTo (implicitTo s) data encoding) = .ok () (endTo s data encoding) by rw [hto]; rfl)]
    rw [bind_ok (show getMsg (endTo s data encoding) =
      .ok (endTo s data encoding).msg (endTo s data encoding) from rfl)]
    refine ⟨r, ?_⟩
    unfold endFinishes
    rw [Bool.not_eq_true] at hf
    rw [hf]
    cases ho : (endTo s data encoding).msg.output.isEmpty with
    | false => rfl
    | true =>
      cases ha : (endTo s data encoding).msg.attached with
      | false => rfl
      | true => rfl

/-- `assignSocket`: everything queued goes to the socket. -/
def assignTo (s : Endpoint Log) : Endpoint Log :=
  ⟨{ s.msg with output := [], attached := true }, ⟨s.sock.writes ++ s.msg.output⟩⟩

theorem flushOutput_log (ret : Bool) (output : List (Chunk × EncArg)) (s : Endpoint Log)
    (h : s.msg.output = output) :
    ∃ r, flushOutput ret output s =
      .ok r ⟨{ s.msg with output := [] }, ⟨s.sock.writes ++ output⟩⟩ := by
  induction output generalizing ret s with
  | nil =>
    have hs : (⟨{ s.msg with output := [] }, ⟨s.sock.writes ++ []⟩⟩ : Endpoint Log) = s := by
      rw [List.append_nil, ← h]
    rw [hs]
    unfold flushOutput
    rw [bind_ok (show getMsg s = .ok s.msg s from rfl)]
    split_ifs
    · exact ⟨_, rfl⟩
    · exact ⟨_, rfl⟩
    · exact ⟨_, rfl⟩
  | cons w output ih =>
    obtain ⟨r, hr⟩ := ih true ⟨{ s.msg with output := output }, ⟨s.sock.writes ++ [w]⟩⟩ rfl
    refine ⟨r, ?_⟩
    simp only [List.append_assoc, List.singleton_append] at hr
    exact hr

theorem assignSocket_log (s : Endpoint Log) : ∃ r, assignSocket s = .ok r (assignTo s) := by
  obtain ⟨r, hr⟩ := flushOutput_log false s.msg.output
    ⟨{ s.msg with attached := true }, s.sock⟩ rfl
  exact ⟨r, hr⟩

/-! ### Sequences of calls -/

inductive Call
  | writeContinue
  | writeHead (statusCode : ℕ) (reasonPhrase : Option JSString) (obj : Option HeadersArg)
  | write (chunk : Chunk) (encoding : EncArg)
  | «end» (data : Option Chunk) (encoding : EncArg)

def Call.isEnd : Call → Bool
  | .end _ _ => true
  | _ => false

def Call.isBody : Call → Bool
  | .write _ _ => true
  | .end _ _ => true
  | _ => false

/-- One call. The connection takes the socket back on `'finish'`. -/
def exec (s : Endpoint Log) : Call → Endpoint Log
  | .writeContinue => after writeContinue s
  | .writeHead statusCode reasonPhrase obj => after (writeHead statusCode reasonPhrase obj) s
  | .write chunk encoding => after (write chunk encoding) s
  | .end data encoding =>
    match «end» data encoding s with
    | .ok (_, true) s => { s with msg := detachSocket s.msg }
    | .ok _ s => s
    | .error _ s => s

theorem exec_writeContinue (s : Endpoint Log) :
    exec s .writeContinue =
      let s := raw s (.str (js "HTTP/1.1 100 Continue" ++ CRLF ++ CRLF)) (some (encName .ascii))
      { s with msg := { s.msg with sent100 := true } } := by
  unfold exec after writeContinue
  dsimp only
  rw [bind_ok (writeRaw_log _ _ _)]
  rfl

theorem exec_writeHead (s : Endpoint Log) (statusCode : ℕ) (reasonPhrase : Option JSString)
    (obj : Option HeadersArg) :
    exec s (.writeHead statusCode reasonPhrase obj) =
      writeHeadTo s statusCode reasonPhrase obj := by
  unfold exec after
  dsimp only
  rw [writeHead_log]
  split_ifs
  · rfl
  · rfl

theorem exec_write (s : Endpoint Log) (chunk : Chunk) (encoding : EncArg) :
    exec s (.write chunk encoding) =
      sendAll (implicitTo s) (bodySends (implicitTo s).msg chunk encoding) := by
  obtain ⟨r, hr⟩ := write_log chunk encoding s
  unfold exec after
  dsimp only
  rw [hr]

theorem exec_end (s : Endpoint Log) (data : Option Chunk) (encoding : EncArg) :
    exec s (.end data encoding) =
      if endFinishes s data encoding then
        { endTo s data encoding with msg := detachSocket (endTo s data encoding).msg }
      else endTo s data encoding := by
  obtain ⟨r, hr⟩ := end_log data encoding s
  unfold exec
  dsimp only
  rw [hr]
  by_cases h : s.msg.finished = true ∨ (endTo s data encoding).msg.output.isEmpty = false ∨
      (endTo s data encoding).msg.attached = true
  · rw [if_pos h]
    cases endFinishes s data encoding with
    | true => rfl
    | false => rfl
  · rw [if_neg h]
    have hfin : endFinishes s data encoding = false := by
      simp only [not_or] at h
      simp [endFinishes, h.2.2]
    rw [hfin]
    rfl

theorem exec_implicitTo {s : Endpoint Log} (hf : s.msg.finished = false) {c : Call}
    (hc : c.isBody = true) : exec s c = exec (implicitTo s) c := by
  have hf' : (implicitTo s).msg.finished = false := by rw [implicitTo_finished, hf]
  have himplicit : implicitTo (implicitTo s) = implicitTo s :=
    implicitTo_of_header (implicitTo_header s)
  cases c with
  | writeContinue => cases hc
  | writeHead statusCode reasonPhrase obj => cases hc
  | write chunk encoding => rw [exec_write, exec_write, himplicit]
  | «end» data encoding =>
    have hto : endTo s data encoding = endTo (implicitTo s) data encoding := by
      unfold endTo
      rw [hf, hf', himplicit]
      rfl
    have hfin : endFinishes s data encoding = endFinishes (implicitTo s) data encoding := by
      unfold endFinishes
      rw [hf, hf', hto]
    rw [exec_end, exec_end, hfin, hto]

theorem foldl_exec_implicitTo {s : Endpoint Log} (hf : s.msg.finished = false) {c : Call}
    (hc : c.isBody = true) (calls : List Call) :
    (c :: calls).foldl exec s = (c :: calls).foldl exec (implicitTo s) := by
  rw [List.foldl_cons, List.foldl_cons, exec_implicitTo hf hc]

/-! ### Requests and responses -/

/-- `_implicitHeader`, where it is called. -/
def Kind.implicitTo : Kind → Endpoint Log → Endpoint Log
  | .response, s => Http.implicitTo s
  | .request firstLine, s =>
    if s.msg.header.isNone then headTo s firstLine (headersFor s.msg none).lines else s

/-- One call of `write` or `end`. -/
def Kind.exec (kind : Kind) (s : Endpoint Log) : Call → Endpoint Log
  | .write chunk encoding => after (kind.write chunk encoding) s
  | .end data encoding => after (kind.end data encoding) s
  | c => Http.exec s c

/-- The message with its header, which `write` and `end` make if there is none. -/
def Kind.headed (kind : Kind) (m : Outgoing) : Outgoing := (kind.implicitTo ⟨m, ⟨[]⟩⟩).msg

theorem Kind.implicitTo_of_header (kind : Kind) {s : Endpoint Log}
    (h : s.msg.header.isNone = false) : kind.implicitTo s = s := by
  cases kind with
  | response => exact Http.implicitTo_of_header h
  | request firstLine => exact if_neg (by simp [h])

theorem Kind.implicitTo_header (kind : Kind) (s : Endpoint Log) :
    (kind.implicitTo s).msg.header.isNone = false := by
  cases kind with
  | response => exact Http.implicitTo_header s
  | request firstLine =>
    unfold Kind.implicitTo
    dsimp only
    split_ifs with h
    · rw [headTo_header]
      rfl
    · exact Bool.not_eq_true _ ▸ h

theorem Kind.implicitTo_finished (kind : Kind) (s : Endpoint Log) :
    (kind.implicitTo s).msg.finished = s.msg.finished := by
  cases kind with
  | response => exact Http.implicitTo_finished s
  | request firstLine =>
    unfold Kind.implicitTo
    dsimp only
    split_ifs
    · exact headTo_finished s _ _
    · rfl

theorem Kind.implicitHeader_log (kind : Kind) (s : Endpoint Log) :
    kind.implicitHeader s = .ok () (kind.implicitTo s) := by
  cases kind with
  | response => exact Http.implicitHeader_log s
  | request firstLine =>
    unfold Kind.implicitHeader Kind.implicitTo
    dsimp only
    rw [bind_ok (show getMsg s = .ok s.msg s from rfl)]
    split_ifs with h
    · have hrender : renderHeaders s = .ok (headersFor s.msg none) s := by
        have hnone : s.msg.header.isSome = false := by
          rw [Option.isNone_iff_eq_none] at h
          rw [h]
          rfl
        unfold renderHeaders
        rw [bind_ok (show getMsg s = .ok s.msg s from rfl), hnone]
        rfl
      rw [bind_ok hrender]
      exact sendHeader_log _ _ _
    · rfl

theorem Kind.exec_write (kind : Kind) (s : Endpoint Log) (chunk : Chunk) (encoding : EncArg) :
    kind.exec s (.write chunk encoding) =
      sendAll (kind.implicitTo s) (bodySends (kind.implicitTo s).msg chunk encoding) := by
  obtain ⟨r, hr⟩ := write_log chunk encoding (kind.implicitTo s)
  rw [Http.implicitTo_of_header (kind.implicitTo_header s)] at hr
  unfold Kind.exec Kind.write after
  dsimp only
  rw [bind_ok (kind.implicitHeader_log s), hr]

theorem Kind.exec_end (kind : Kind) {s : Endpoint Log} (hf : s.msg.finished = false)
    (data : Option Chunk) (encoding : EncArg) :
    kind.exec s (.end data encoding) = endTo (kind.implicitTo s) data encoding := by
  obtain ⟨r, hr⟩ := end_log data encoding (kind.implicitTo s)
  unfold Kind.exec Kind.end after
  dsimp only
  rw [bind_ok (show getMsg s = .ok s.msg s from rfl), hf, if_neg Bool.false_ne_true,
    bind_ok (kind.implicitHeader_log s), hr]
  split_ifs
  · rfl
  · rfl

/-- What `end` adds to the bytes of an unfinished message is what it sends before it sets
`finished`. -/
theorem endTo_of_header {s : Endpoint Log} (hf : s.msg.finished = false)
    (hheader : s.msg.header.isNone = false) (data : Option Chunk) (encoding : EncArg) :
    endTo s data encoding =
      { closeTo s data encoding with
        msg := { (closeTo s data encoding).msg with finished := true } } := by
  unfold endTo
  rw [hf, if_neg Bool.false_ne_true, Http.implicitTo_of_header hheader]

end NodeJS.Http
