import NodeJS.HttpParser.Targets
import NodeJS.HttpParser.Bodies
import NodeJS.HttpParser.Streams

/-! What `http_parser_execute` makes of whole messages, and of one message after the other. -/
namespace NodeJS.HttpParser
open Lib.Marks (Act Machine Feed fed)

variable {U : Type} (strict : Bool) {f : Feed UInt8 Mark Notification U}

/-! ### The end of the header -/

def Message.next (strict : Bool) (m : Message) : State := NEW_MESSAGE strict { blank with toMessage := m }

/-- The message as `on_headers_complete` gets to see it. -/
def Message.headed (m : Message) : Message :=
  { m with upgrade := m.upgrade || m.flags.upgrade || m.method == Method.connect }

/-- The message after `on_headers_complete`, which answers 1 when there will be no body. -/
def Message.answered (m : Message) (r : ℤ) : Message :=
  if r = 1 then { m.headed with flags.skipbody := true } else m.headed

inductive Framing
  | none
  | chunked
  | length (n : ℕ)
  | eof
  deriving DecidableEq

def Message.framing (m : Message) : Framing :=
  if m.flags.skipbody then .none
  else if m.flags.chunked then .chunked
  else if m.contentLength = 0 then .none
  else if m.contentLength > 0 then .length m.contentLength.toNat
  else if m.type = .request ∨ m.shouldKeepAlive then .none
  else .eof

def Framing.state (strict : Bool) (m : Message) : Framing → State
  | .none => m.next strict
  | .chunked => .chunkSizeStart
  | .length _ => .bodyIdentity
  | .eof => .bodyIdentityEof

/-- The client after the header: a message without a body is complete. -/
def hearFraming (f : Feed UInt8 Mark Notification U) (u : U) (m : Message) : Framing → U
  | .none => hearComplete f u m
  | _ => u

theorem reads_emptyLine {q : Parser} (hs : q.state.beginsLine = true)
    (hnread : q.nread < HTTP_MAX_HEADER_SIZE) (u : U) :
    Reads strict f [CR] q u { q.count 1 with state := .headersAlmostDone } u := by
  have hheader : q.state.parsingHeader = true := by
    cases h : q.state <;> first | rfl | (rw [h] at hs; cases hs)
  refine reads_plain hheader hnread rfl ?_
  cases h : q.state with
  | headerFieldStart => rfl
  | headerValueLws => rfl
  | _ =>
    rw [h] at hs
    cases hs

/-- The end of the trailers completes the message. -/
theorem reads_trailerEnd (hw : Willing f) {q : Parser} {m : Message} {n : ℕ} (hq : Between q m n)
    (htrailing : m.flags.trailing = true) (hnread : n + 2 ≤ HTTP_MAX_HEADER_SIZE) (u : U) :
    Reads strict f [CR, LF] q u { q.count 2 with state := m.next strict } (hearComplete f u m) := by
  obtain ⟨hs, rfl, rfl⟩ := hq
  have hcr := reads_emptyLine strict (f := f) hs (by omega) u
  have hlf : Reads strict f [LF] { q.count 1 with state := .headersAlmostDone } u
      { q.count 2 with state := q.toMessage.next strict } (hearComplete f u q.toMessage) := by
    refine reads_plain rfl (by show q.nread + 1 < _; omega)
      (newMessage_marks strict { blank with toMessage := q.toMessage }) ?_
    rw [switch, headersAlmostDone, strict_check_self, if_pos (by exact htrailing),
      feed_messageComplete strict hw]
    rfl
  exact hcr.append hlf

theorem headersComplete_eq (hw : Willing f) {q : Parser} (hupgrade : q.upgrade = false)
    (u : U) :
    (headersComplete strict q).feed f LF u =
      (.inl { q with state := q.toMessage.framing.state strict q.toMessage },
        hearFraming f u q.toMessage q.toMessage.framing) := by
  unfold headersComplete Message.framing
  rw [hupgrade, if_neg (by decide)]
  split_ifs <;> first | exact feed_messageComplete strict hw LF u | rfl

theorem Message.answered_upgrade (m : Message) (r : ℤ) :
    (m.answered r).upgrade = m.headed.upgrade := by
  unfold answered
  split_ifs <;> rfl

/-- The empty line at the end of the header, and the answer to `on_headers_complete`. -/
theorem feed_headersAlmostDone {q : Parser} (htrailing : q.flags.trailing = false) {u : U}
    (hanswer : (f.ask (.headersComplete q.headed) u).1 ∈ ({0, 1} : Set ℤ)) :
    (headersAlmostDone strict q LF).feed f LF u =
      (headersComplete strict
        { q with
          toMessage := q.answered (f.ask (.headersComplete q.headed) u).1
          nread := 0 }).feed f LF (f.ask (.headersComplete q.headed) u).2 := by
  have hask : headersAlmostDone strict q LF = .ask (.headersComplete q.headed) fun r =>
      if r = 0 then headersComplete strict { q with toMessage := q.headed, nread := 0 }
      else if r = 1 then headersComplete strict
        { q with toMessage := { q.headed with flags.skipbody := true }, nread := 0 }
      else .stop (.refused q.headed) := by
    rw [headersAlmostDone, strict_check_self, htrailing, if_neg (by decide)]
    rfl
  rw [hask, Act.feed]
  generalize f.ask (.headersComplete q.headed) u = answer at hanswer ⊢
  obtain ⟨r, u'⟩ := answer
  rw [Set.mem_insert_iff, Set.mem_singleton_iff] at hanswer
  dsimp only at hanswer ⊢
  rcases hanswer with rfl | rfl
  · rw [if_pos rfl, Message.answered, if_neg (by decide)]
  · rw [if_neg (by decide), if_pos rfl, Message.answered, if_pos rfl]

theorem framing_marks (m : Message) (framing : Framing) : (framing.state strict m).marks = ∅ := by
  cases framing with
  | none => exact newMessage_marks strict { blank with toMessage := m }
  | _ => rfl

/-- The end of the header. -/
theorem reads_headEnd (hw : Willing f) {q : Parser} {m : Message} {n : ℕ} (hq : Between q m n)
    (htrailing : m.flags.trailing = false) (hupgrade : m.headed.upgrade = false) {u : U}
    (hanswer : (f.ask (.headersComplete m.headed) u).1 ∈ ({0, 1} : Set ℤ))
    (hnread : n + 2 ≤ HTTP_MAX_HEADER_SIZE) :
    ∃ q', Reads strict f [CR, LF] q u q'
        (hearFraming f (f.ask (.headersComplete m.headed) u).2
          (m.answered (f.ask (.headersComplete m.headed) u).1)
          (m.answered (f.ask (.headersComplete m.headed) u).1).framing) ∧
      q'.toMessage = m.answered (f.ask (.headersComplete m.headed) u).1 ∧
      q'.state = q'.toMessage.framing.state strict q'.toMessage ∧ q'.nread = 0 := by
  obtain ⟨hs, rfl, rfl⟩ := hq
  have hcr := reads_emptyLine strict (f := f) hs (by omega) u
  have hfeed := feed_headersAlmostDone strict
    (q := Parser.count { q.count 1 with state := .headersAlmostDone } 1) htrailing hanswer
  rw [headersComplete_eq strict hw (by
    show (q.toMessage.answered _).upgrade = false
    rw [Message.answered_upgrade, hupgrade])] at hfeed
  exact ⟨_, hcr.append (reads_plain rfl (by show q.nread + 1 < _; omega)
    (framing_marks strict _ _) hfeed), rfl, rfl, rfl⟩

/-! ### First lines -/

inductive FirstLine
  | request (l : RequestLine)
  | response (l : StatusLine)

def FirstLine.bytes : FirstLine → Bytes
  | .request l => l.bytes
  | .response l => l.bytes

def FirstLine.awaited : FirstLine → State
  | .request _ => .startReq
  | .response _ => .startRes

def FirstLine.Valid (strict : Bool) : FirstLine → Prop
  | .request l => l.target.Valid strict
  | .response _ => True

def Message.firstLine (m : Message) : FirstLine → Message
  | .request l => m.requestLine l
  | .response l => m.statusLine l

def hearFirst (f : Feed UInt8 Mark Notification U) (u : U) (m : Message) : FirstLine → U
  | .request l => hearTarget f (hearBegin f u m.fresh) l.target
  | .response _ => hearBegin f u m.fresh

theorem reads_firstLine (hw : Willing f) (hf : f.Lawful overlap) {l : FirstLine}
    (hl : l.Valid strict) {q : Parser} (hs : q.state = l.awaited)
    (hnread : q.nread + l.bytes.length ≤ HTTP_MAX_HEADER_SIZE) (u : U) :
    ∃ q', Reads strict f l.bytes q u q' (hearFirst f u q.toMessage l) ∧
      Between q' (q.toMessage.firstLine l) (q.nread + l.bytes.length) := by
  cases l with
  | request l => exact reads_requestLine strict hw hf hl hs hnread u
  | response l => exact reads_statusLine strict hw l hs hnread u

/-! ### Bodies -/

/-- What follows a header, where its end can be found. -/
inductive Body
  | none
  | identity (b : Bytes)
  | chunked (chunks : List Chunk) (last : SizeLine) (trailers : List HeaderLine)

def Body.bytes : Body → Bytes
  | .none => []
  | .identity b => b
  | .chunked chunks last trailers =>
    chunks.flatMap Chunk.bytes ++ (last.bytes ++ (trailers.flatMap HeaderLine.bytes ++ [CR, LF]))

def Body.data : Body → Bytes
  | .none => []
  | .identity b => b
  | .chunked chunks _ _ => chunks.flatMap Chunk.data

def Body.trailers : Body → List HeaderLine
  | .chunked _ _ trailers => trailers
  | _ => []

/-- The bytes that count against the header of the next message. -/
def Body.nread : Body → ℕ
  | .chunked _ _ trailers => (trailers.flatMap HeaderLine.bytes).length + 2
  | _ => 0

def Body.Fits : Body → Framing → Prop
  | .none, framing => framing = .none
  | .identity b, framing => b ≠ [] ∧ framing = .length b.length
  | .chunked chunks last trailers, framing =>
    framing = .chunked ∧ (∀ c ∈ chunks, c.line.bytes.length ≤ HTTP_MAX_HEADER_SIZE) ∧
      sizeOf last.digits = 0 ∧ last.bytes.length ≤ HTTP_MAX_HEADER_SIZE ∧
      (∀ l ∈ trailers, l.Valid) ∧
      (trailers.flatMap HeaderLine.bytes).length + 2 ≤ HTTP_MAX_HEADER_SIZE

def Message.bodied (m : Message) : Body → Message
  | .none => m
  | .identity _ => { m with contentLength := 0 }
  | .chunked _ _ trailers =>
    trailers.foldl Message.line { m with contentLength := 0, flags.trailing := true }

def hearRest (f : Feed UInt8 Mark Notification U) (u : U) (m : Message) (b : Body) : U :=
  hearComplete f (b.trailers.foldl (hearLine f) (hearBody f u b.data)) (m.bodied b)

theorem Message.line_trailing (m : Message) (l : HeaderLine) :
    (m.line l).flags.trailing = m.flags.trailing := by
  unfold line text said
  split <;> split_ifs <;> rfl

theorem foldl_line_trailing (m : Message) (lines : List HeaderLine) :
    (lines.foldl Message.line m).flags.trailing = m.flags.trailing := by
  induction lines generalizing m with
  | nil => rfl
  | cons l lines ih => rw [List.foldl_cons, ih, Message.line_trailing]

theorem Message.framing_chunked {m : Message} (h : m.framing = .chunked) :
    m.flags.chunked = true := by
  unfold framing at h
  split_ifs at h with hskip hchunked
  exact hchunked

theorem Message.framing_length {m : Message} {n : ℕ} (h : m.framing = .length n) :
    m.contentLength = n := by
  unfold framing at h
  split_ifs at h with hskip hchunked hzero hpos
  obtain rfl := Framing.length.inj h
  omega

/-- A parser between two messages. -/
structure Idle where
  state : State
  message : Message
  nread : ℕ

def Parser.idle (q : Parser) : Idle := ⟨q.state, q.toMessage, q.nread⟩

/-- The chunks up to the last one, the trailers, and the end. -/
theorem reads_chunked (hw : Willing f) (hf : f.Lawful overlap) {chunks : List Chunk}
    {last : SizeLine} {trailers : List HeaderLine} {m : Message}
    (hb : Body.Fits (.chunked chunks last trailers) m.framing) {q : Parser}
    (hq : BeforeChunk q) (hm : q.toMessage = m) (u : U) :
    ∃ q', Reads strict f (Body.chunked chunks last trailers).bytes q u q'
        (hearRest f u m (.chunked chunks last trailers)) ∧
      q'.idle = ⟨(m.bodied (.chunked chunks last trailers)).next strict,
        m.bodied (.chunked chunks last trailers), Body.nread (.chunked chunks last trailers)⟩ := by
  obtain ⟨-, hchunks, hlast, hlastLength, htrailers, htrailersLength⟩ := hb
  subst hm
  obtain ⟨n, hread⟩ := reads_chunks strict hf hchunks hq u
  have hsize := reads_sizeLine strict (f := f) last (q := { q with contentLength := n }) hq.state
    hq.chunked hq.nread hlastLength (hearBody f u (chunks.flatMap Chunk.data))
  rw [hlast, Parser.sized, if_pos rfl] at hsize
  obtain ⟨q₁, hlines, hq₁⟩ := reads_lines strict hf (q := { q with
    contentLength := 0, flags.trailing := true, state := .headerFieldStart, nread := 0 })
    ⟨rfl, rfl, rfl⟩ htrailers (by show 0 + _ ≤ _; omega)
    (hearBody f u (chunks.flatMap Chunk.data))
  have hend := reads_trailerEnd strict hw hq₁ (by rw [foldl_line_trailing])
    (by show 0 + _ + 2 ≤ _; omega)
    (trailers.foldl (hearLine f) (hearBody f u (chunks.flatMap Chunk.data)))
  refine ⟨_, hread.append (hsize.append (hlines.append hend)), ?_⟩
  show Idle.mk _ q₁.toMessage (q₁.nread + 2) = _
  rw [hq₁.message, hq₁.nread, Nat.zero_add]
  rfl

/-- A body is read: its bytes, and what else there is, are handed on, and it completes the
message. -/
theorem reads_body (hw : Willing f) (hf : f.Lawful overlap) {b : Body} {m : Message}
    (hb : b.Fits m.framing) {q : Parser} (hq : q.idle = ⟨m.framing.state strict m, m, 0⟩) (u : U) :
    ∃ q', Reads strict f b.bytes q (hearFraming f u m m.framing) q' (hearRest f u m b) ∧
      q'.idle = ⟨(m.bodied b).next strict, m.bodied b, b.nread⟩ := by
  obtain ⟨hs, hm, hn⟩ := Idle.mk.inj hq
  cases b with
  | none =>
    rw [show m.framing = .none from hb] at hs ⊢
    subst hm
    exact ⟨q, .nil, by rw [Parser.idle, hs, hn]; rfl⟩
  | identity b =>
    obtain ⟨hne, hframing⟩ := hb
    rw [hframing] at hs ⊢
    subst hm
    have hread := reads_identity strict hw hf hne hs (Message.framing_length hframing) [] u
    exact ⟨_, hread, congrArg (Idle.mk _ _) hn⟩
  | chunked chunks last trailers =>
    have hframing := hb.1
    rw [hframing] at hs ⊢
    exact reads_chunked strict hw hf hb
      ⟨hs, by rw [hm]; exact Message.framing_chunked hframing, hn⟩ hm u

/-! ### Messages -/

structure Head where
  first : FirstLine
  lines : List HeaderLine

def Head.bytes (s : Head) : Bytes :=
  s.first.bytes ++ (s.lines.flatMap HeaderLine.bytes ++ [CR, LF])

def Message.header (m : Message) (s : Head) : Message :=
  s.lines.foldl Message.line (m.firstLine s.first)

/-- What a client that has heard a header answers. -/
def hearHeader (f : Feed UInt8 Mark Notification U) (u : U) (m : Message) (s : Head) : ℤ × U :=
  f.ask (.headersComplete (m.header s).headed)
    (s.lines.foldl (hearLine f) (hearFirst f u m s.first))

def awaitBody (f : Feed UInt8 Mark Notification U) (u : U) (m : Message) (s : Head) : Message :=
  (m.header s).answered (hearHeader f u m s).1

/-- A header that can be read where a message is awaited. -/
structure Head.Fits (strict : Bool) (f : Feed UInt8 Mark Notification U) (s : Head) (i : Idle)
    (u : U) : Prop where
  awaited : i.state = s.first.awaited
  first : s.first.Valid strict
  lines : ∀ l ∈ s.lines, l.Valid
  limit : i.nread + s.bytes.length ≤ HTTP_MAX_HEADER_SIZE
  upgrade : (i.message.header s).headed.upgrade = false
  answer : (hearHeader f u i.message s).1 ∈ ({0, 1} : Set ℤ)

theorem Message.firstLine_trailing (m : Message) (l : FirstLine) :
    (m.firstLine l).flags.trailing = false := by
  cases l <;> rfl

/-- A header is read. -/
theorem reads_head (hw : Willing f) (hf : f.Lawful overlap) {s : Head} {q : Parser} {u : U}
    (hs : s.Fits strict f q.idle u) :
    ∃ q', Reads strict f s.bytes q u q'
        (hearFraming f (hearHeader f u q.toMessage s).2 (awaitBody f u q.toMessage s)
          (awaitBody f u q.toMessage s).framing) ∧
      q'.idle = ⟨(awaitBody f u q.toMessage s).framing.state strict (awaitBody f u q.toMessage s),
        awaitBody f u q.toMessage s, 0⟩ := by
  have hlimit : q.nread + s.bytes.length ≤ HTTP_MAX_HEADER_SIZE := hs.limit
  have hlength : s.bytes.length =
      s.first.bytes.length + ((s.lines.flatMap HeaderLine.bytes).length + 2) := by
    rw [Head.bytes, List.length_append, List.length_append, List.length_cons, List.length_cons,
      List.length_nil]
  rw [hlength] at hlimit
  obtain ⟨q₁, hfirst, hq₁⟩ := reads_firstLine strict hw hf hs.first hs.awaited
    (by omega) u
  obtain ⟨q₂, hlines, hq₂⟩ := reads_lines strict hf hq₁ hs.lines (by omega)
    (hearFirst f u q.toMessage s.first)
  obtain ⟨q', hend, hm, hstate, hn⟩ := reads_headEnd strict hw hq₂
    (by rw [foldl_line_trailing, Message.firstLine_trailing]) hs.upgrade hs.answer (by omega)
  refine ⟨q', hfirst.append (hlines.append hend), ?_⟩
  rw [Parser.idle, hstate, hm, hn]
  rfl

structure SentMessage extends Head where
  body : Body

def SentMessage.bytes (s : SentMessage) : Bytes := s.toHead.bytes ++ s.body.bytes

/-- A message that can be read where one is awaited. -/
structure SentMessage.Fits (strict : Bool) (f : Feed UInt8 Mark Notification U) (s : SentMessage)
    (x : Idle × U) : Prop where
  head : s.toHead.Fits strict f x.1 x.2
  body : s.body.Fits (awaitBody f x.2 x.1.message s.toHead).framing

def receive (strict : Bool) (f : Feed UInt8 Mark Notification U) (x : Idle × U) (s : SentMessage) :
    Idle × U :=
  let m := awaitBody f x.2 x.1.message s.toHead
  (⟨(m.bodied s.body).next strict, m.bodied s.body, s.body.nread⟩,
    hearRest f (hearHeader f x.2 x.1.message s.toHead).2 m s.body)

theorem reads_message (hw : Willing f) (hf : f.Lawful overlap) {s : SentMessage} {q : Parser}
    {u : U} (hs : s.Fits strict f (q.idle, u)) :
    ∃ q' u', Reads strict f s.bytes q u q' u' ∧ (q'.idle, u') = receive strict f (q.idle, u) s := by
  obtain ⟨q₁, hhead, hq₁⟩ := reads_head strict hw hf hs.head
  obtain ⟨q', hbody, hq'⟩ := reads_body strict hw hf hs.body hq₁
    (hearHeader f u q.toMessage s.toHead).2
  exact ⟨q', _, hhead.append hbody, congrArg (Prod.mk · _) hq'⟩

/-- Messages that can be read one after the other. -/
def FitAll (strict : Bool) (f : Feed UInt8 Mark Notification U) : List SentMessage → Idle × U → Prop
  | [], _ => True
  | s :: messages, x => s.Fits strict f x ∧ FitAll strict f messages (receive strict f x s)

theorem reads_messages (hw : Willing f) (hf : f.Lawful overlap) {messages : List SentMessage}
    {q : Parser} {u : U} (hs : FitAll strict f messages (q.idle, u)) :
    ∃ q' u', Reads strict f (messages.flatMap SentMessage.bytes) q u q' u' ∧
      (q'.idle, u') = messages.foldl (receive strict f) (q.idle, u) := by
  induction messages generalizing q u with
  | nil => exact ⟨q, u, .nil, rfl⟩
  | cons s messages ih =>
    obtain ⟨hs, hrest⟩ := hs
    obtain ⟨q₁, u₁, hone, hq₁⟩ := reads_message strict hw hf hs
    rw [← hq₁] at hrest
    obtain ⟨q', u', hmore, hq'⟩ := ih hrest
    rw [hq₁] at hq'
    exact ⟨q', u', hone.append hmore, hq'⟩

/-! ### Streams -/

/-- A stream may end before a message. -/
def State.isIdle : State → Bool
  | .dead | .startReqOrRes | .startRes | .startReq => true
  | _ => false

theorem next_isIdle (m : Message) : (m.next strict).isIdle = true := by
  unfold Message.next NEW_MESSAGE
  split_ifs <;> rfl

theorem executeEof_idle {settings : Settings U} {q : Parser} (h : q.state.isIdle = true) (u : U) :
    executeEof settings q u = ⟨q, 0, u, .parsed⟩ := by
  unfold executeEof
  cases hs : q.state <;> first | rfl | (rw [hs] at h; cases h)

theorem foldl_receive_isIdle (messages : List SentMessage) {x : Idle × U}
    (h : x.1.state.isIdle = true) :
    (messages.foldl (receive strict f) x).1.state.isIdle = true := by
  induction messages generalizing x with
  | nil => exact h
  | cons s messages ih => exact ih (next_isIdle strict _)

theorem init_isIdle (q : Parser) (t : HttpParserType) : (q.init t).state.isIdle = true := by
  cases t <;> rfl

theorem marks_of_isIdle {s : State} (h : s.isIdle = true) : s.marks = ∅ := by
  cases s <;> first | rfl | cases h

/-- Messages that were sent one after the other are parsed, however the stream is cut: the client
hears their parts, and the stream may end there. -/
theorem messages_parsed {settings : Settings U} (hc : settings.Follows f) (hw : Willing f)
    (hf : f.Lawful overlap) {q : Parser} (h : q.index < 2 ^ 8) (t : HttpParserType) {u : U}
    {messages : List SentMessage} (hfit : FitAll strict f messages ((q.init t).idle, u))
    {segments : List Bytes} (hne : ∀ data ∈ segments, data ≠ [])
    (hsame : segments.flatten = messages.flatMap SentMessage.bytes) :
    ∃ q' u', executeAll strict settings segments (q.init t) u =
        .ok ⟨q', (messages.flatMap SentMessage.bytes).length, u', .parsed⟩ ∧
      (q'.idle, u') = messages.foldl (receive strict f) ((q.init t).idle, u) ∧
      execute strict settings q' [] u' = .ok ⟨q', 0, u', .parsed⟩ := by
  obtain ⟨q', u', hread, hq'⟩ := reads_messages strict hw hf hfit
  have hidle := foldl_receive_isIdle strict (f := f) messages
    (show ((q.init t).idle, u).1.state.isIdle = true from init_isIdle q t)
  rw [← hq'] at hidle
  rw [← hsame] at hread ⊢
  refine ⟨q', u', executeAll_reads hc hf (init_sound h t) (init_marks q t) hne hread, hq', ?_⟩
  rw [execute, if_pos rfl, executeEof_idle hidle]

/-- A request whose body comes in a chunk, with a trailer, and another request. -/
def pipelined : List SentMessage :=
  [⟨⟨.request ⟨.post, ⟨bytes "/a", some (bytes "b=c"), none⟩, ⟨0x31, 0x31, by decide, by decide⟩⟩,
      [⟨bytes "Transfer-Encoding", bytes " chunked"⟩]⟩,
    .chunked
      [⟨⟨bytes "3", [], by decide +kernel, by decide +kernel, by decide +kernel, by simp, by simp⟩,
        bytes "abc", by decide, by decide⟩]
      ⟨bytes "0", [], by decide +kernel, by decide +kernel, by decide +kernel, by simp, by simp⟩
      [⟨bytes "A", bytes "b"⟩]⟩,
  ⟨⟨.request ⟨.get, ⟨bytes "/", none, none⟩, ⟨0x31, 0x31, by decide, by decide⟩⟩,
    [⟨bytes "Host", bytes "c"⟩]⟩, .none⟩]

theorem pipelined_fit : FitAll true collector pipelined
    ((blank.init .request).idle, ⟨fun _ => [], [], []⟩) := by
  refine ⟨⟨⟨rfl, ?_, by decide +kernel, by decide +kernel, by decide +kernel, .inl rfl⟩, ?_⟩,
    ⟨⟨by decide +kernel, ?_, by decide +kernel, by decide +kernel, by decide +kernel, .inl rfl⟩,
      ?_⟩, trivial⟩
  · exact ⟨⟨0x2f, bytes "a", by decide +kernel⟩, by decide +kernel, by decide +kernel⟩
  · show _ ∧ _
    exact ⟨by decide +kernel, by decide +kernel, by decide +kernel, by decide +kernel,
      by decide +kernel, by decide +kernel⟩
  · exact ⟨⟨0x2f, [], by decide +kernel⟩, by decide +kernel, by decide +kernel⟩
  · show Framing.none = _
    decide +kernel

theorem collector_willing : Willing collector := ⟨fun _ _ => rfl, fun _ _ => rfl⟩

theorem messages_parsed_pipelined :
    ∃ q' u', executeAll true collector.client
        [bytes "POST /a?b=c HTTP/1.1\r\nTransfer-Enc", bytes "oding: chunked\r\n\r\n3\r\na",
          bytes "bc\r\n0\r\nA:b\r\n\r\nGET / HTTP/1.1\r\nHost:c\r", bytes "\n\r\n"]
        (blank.init .request) ⟨fun _ => [], [], []⟩ =
          .ok ⟨q', (pipelined.flatMap SentMessage.bytes).length, u', .parsed⟩ ∧
      (q'.idle, u') = pipelined.foldl (receive true collector)
        ((blank.init .request).idle, ⟨fun _ => [], [], []⟩) ∧
      execute true collector.client q' [] u' = .ok ⟨q', 0, u', .parsed⟩ :=
  messages_parsed true collector.client_follows collector_willing collector_lawful (by decide)
    .request pipelined_fit (by decide) (by decide)

/-- A body without an end of its own. -/
theorem reads_bodyIdentityEof (hf : f.Lawful overlap) {q : Parser} (hs : q.state = .bodyIdentityEof)
    (b x : Bytes) (u : U) : Reads strict f b q (hearBody f u x) q (hearBody f u (x ++ b)) := by
  induction b generalizing x with
  | nil =>
    rw [List.append_nil]
    exact .nil
  | cons a b ih =>
    have hone : Reads strict f [a] q (hearBody f u x) q (hearBody f u (x ++ [a])) := by
      refine reads_bodyByte strict (by rw [hs]; rfl) ?_
      rw [execByte_data strict (by rw [hs]; rfl), hs, switch, Act.feed,
        show f.body [a] (hearBody f u x) = hearBody f u (x ++ [a]) from hearBody_append hf u x [a]]
      rfl
    have hread := hone.append (ih (x ++ [a]))
    rw [List.append_assoc] at hread
    exact hread

/-- Nothing but the end of the stream can end the body. -/
structure Message.Unframed (m : Message) : Prop where
  skipbody : m.flags.skipbody = false
  chunked : m.flags.chunked = false
  contentLength : m.contentLength < 0
  response : m.type ≠ .request
  keepAlive : m.shouldKeepAlive = false

theorem Message.Unframed.framing {m : Message} (h : m.Unframed) : m.framing = .eof := by
  have hlength := h.contentLength
  unfold Message.framing
  rw [h.skipbody, if_neg (by decide), h.chunked, if_neg (by decide), if_neg (by omega),
    if_neg (by omega), h.keepAlive, if_neg (by simp [h.response])]

/-- The body of a response that neither says where it ends nor keeps the connection alive is all of
the stream, and the message is complete when the stream ends. -/
theorem untilEnd_parsed {settings : Settings U} (hc : settings.Follows f) (hw : Willing f)
    (hf : f.Lawful overlap) {q : Parser} (h : q.Sound) {s : Head} {u : U}
    (hs : s.Fits strict f q.idle u) (hunframed : (awaitBody f u q.toMessage s).Unframed) (b : Bytes)
    {segments : List Bytes} (hne : ∀ data ∈ segments, data ≠ [])
    (hsame : segments.flatten = s.bytes ++ b) :
    ∃ q', q'.toMessage = awaitBody f u q.toMessage s ∧
      executeAll strict settings segments q u = .ok ⟨q', (s.bytes ++ b).length,
        hearBody f (hearHeader f u q.toMessage s).2 b, .parsed⟩ ∧
      execute strict settings q' [] (hearBody f (hearHeader f u q.toMessage s).2 b) =
        .ok ⟨q', 0, hearComplete f (hearBody f (hearHeader f u q.toMessage s).2 b) q'.toMessage,
          .parsed⟩ := by
  obtain ⟨q', hhead, hq'⟩ := reads_head strict hw hf hs
  obtain ⟨hstate, hm, -⟩ := Idle.mk.inj hq'
  rw [hunframed.framing] at hhead hstate
  have hread := hhead.append (reads_bodyIdentityEof strict hf hstate b []
    (hearHeader f u q.toMessage s).2)
  have hmarks : q.state.marks = ∅ := marks_of_isIdle (by
    rw [show q.state = s.first.awaited from hs.awaited]
    cases s.first <;> rfl)
  rw [← hsame] at hread ⊢
  refine ⟨q', hm, executeAll_reads hc hf h hmarks hne hread, ?_⟩
  rw [execute, if_pos rfl, executeEof, hstate]
  rw [hc.ask, hw.messageComplete, if_neg (by decide)]
  rfl

def unframed : Head :=
  ⟨.response ⟨⟨0x31, 0x30, by decide, by decide⟩, bytes "200", bytes "OK", by decide,
    by decide +kernel, by decide +kernel, by decide +kernel⟩, []⟩

theorem untilEnd_parsed_unframed :
    ∃ q' : Parser,
      q'.toMessage =
        awaitBody collector ⟨fun _ => [], [], []⟩ (blank.init .response).toMessage unframed ∧
      executeAll true collector.client [bytes "HTTP/1.0 200 O", bytes "K\r\n\r\nab", bytes "c"]
        (blank.init .response) ⟨fun _ => [], [], []⟩ =
          .ok ⟨q', (unframed.bytes ++ bytes "abc").length, hearBody collector
            (hearHeader collector ⟨fun _ => [], [], []⟩ (blank.init .response).toMessage unframed).2
            (bytes "abc"), .parsed⟩ ∧
      execute true collector.client q' [] (hearBody collector
          (hearHeader collector ⟨fun _ => [], [], []⟩ (blank.init .response).toMessage unframed).2
          (bytes "abc")) =
        .ok ⟨q', 0, hearComplete collector (hearBody collector
          (hearHeader collector ⟨fun _ => [], [], []⟩ (blank.init .response).toMessage unframed).2
          (bytes "abc")) q'.toMessage, .parsed⟩ :=
  untilEnd_parsed true collector.client_follows collector_willing collector_lawful
    (init_sound (q := blank) (by decide) .response) (s := unframed) (u := ⟨fun _ => [], [], []⟩)
    ⟨rfl, trivial, by decide, by decide, by decide, .inl rfl⟩
    ⟨by decide, by decide, by decide, by decide, by decide⟩ (bytes "abc") (by decide) (by decide)

end NodeJS.HttpParser
