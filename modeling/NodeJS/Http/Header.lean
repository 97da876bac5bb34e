import NodeJS.Buffer.Encoding

/-! `http.js`: the header block of an `OutgoingMessage` and the flags that `_storeHeader` sets
while it renders it. -/
namespace NodeJS.Http

/-- `/pattern/i.test(s)` for a pattern of ASCII letters and dashes: it may match anywhere. -/
def test (pattern : String) (s : JSString) : Bool :=
  (toLowerCase s).tails.any fun t => (toLowerCase (js pattern)).isPrefixOf t

def connectionExpression : JSString → Bool := test "Connection"

def transferEncodingExpression : JSString → Bool := test "Transfer-Encoding"

def closeExpression : JSString → Bool := test "close"

def chunkExpression : JSString → Bool := test "chunk"

def contentLengthExpression : JSString → Bool := test "Content-Length"

def expectExpression : JSString → Bool := test "Expect"

/-- One `(field, value)` line of a header block. -/
abbrev Line := JSString × JSString

/-- The value of a header: a string, or an array of them. -/
inductive Value
  | one (s : JSString)
  | many (l : List JSString)

def Value.lines (field : JSString) : Value → List Line
  | .one s => [(field, s)]
  | .many l => l.map fun s => (field, s)

/-- Fields with their values, in the order in which the code visits them. -/
abbrev Headers := List (JSString × Value)

def Headers.lines (headers : Headers) : List Line := headers.flatMap fun h => h.2.lines h.1

def inheritedNames : List JSString :=
  [js "constructor", js "toString", js "toLocaleString", js "valueOf", js "hasOwnProperty",
    js "isPrototypeOf", js "propertyIsEnumerable", js "__defineGetter__", js "__lookupGetter__",
    js "__defineSetter__", js "__lookupSetter__", js "__proto__"]

def inherited (field : JSString) : Bool := inheritedNames.contains field

/-- An `OutgoingMessage`. `attached` says that `this.connection` is set and that its
`_httpMessage` is this message; `output` pairs `output` with `outputEncodings`, and `headers`
has the key, the name and the value of each entry of `_headers` and `_headerNames`. -/
structure Outgoing where
  output : List (Chunk × EncArg)
  last : Bool
  chunkedEncoding : Bool
  shouldKeepAlive : Bool
  useChunkedEncodingByDefault : Bool
  hasBody : Bool
  trailer : JSString
  finished : Bool
  header : Option JSString
  headerSent : Bool
  headers : Option (List (JSString × JSString × Value))
  statusCode : ℕ
  expectContinue : Bool
  sent100 : Bool
  attached : Bool

def Outgoing.new : Outgoing where
  output := []
  last := false
  chunkedEncoding := false
  shouldKeepAlive := true
  useChunkedEncodingByDefault := true
  hasBody := true
  trailer := []
  finished := false
  header := none
  headerSent := false
  headers := none
  statusCode := 200
  expectContinue := false
  sent100 := false
  attached := false

/-- The variables of `_storeHeader`. -/
structure Stored where
  msg : Outgoing
  lines : List Line
  sentConnectionHeader : Bool
  sentContentLengthHeader : Bool
  sentTransferEncodingHeader : Bool
  sentExpect : Bool

/-- The inner function `store`. -/
def store (st : Stored) (line : Line) : Stored :=
  let (field, value) := line
  let st := { st with lines := st.lines ++ [line] }
  if connectionExpression field then
    let st := { st with sentConnectionHeader := true }
    if closeExpression value then { st with msg := { st.msg with last := true } }
    else { st with msg := { st.msg with shouldKeepAlive := true } }
  else if transferEncodingExpression field then
    let st := { st with sentTransferEncodingHeader := true }
    if chunkExpression value then { st with msg := { st.msg with chunkedEncoding := true } } else st
  else if contentLengthExpression field then { st with sentContentLengthHeader := true }
  else if expectExpression field then { st with sentExpect := true }
  else st

def storeConnection (st : Stored) : Stored :=
  if st.sentConnectionHeader = false then
    if st.msg.shouldKeepAlive ∧
        (st.sentContentLengthHeader ∨ st.msg.useChunkedEncodingByDefault) then
      { st with lines := st.lines ++ [(js "Connection", js "keep-alive")] }
    else
      { st with
        msg := { st.msg with last := true }
        lines := st.lines ++ [(js "Connection", js "close")] }
  else st

/-- The framing of a body that the user has given none for. -/
def storeFraming (st : Stored) : Stored :=
  if st.sentContentLengthHeader = false ∧ st.sentTransferEncodingHeader = false then
    if st.msg.hasBody then
      if st.msg.useChunkedEncodingByDefault then
        { st with
          msg := { st.msg with chunkedEncoding := true }
          lines := st.lines ++ [(js "Transfer-Encoding", js "chunked")] }
      else { st with msg := { st.msg with last := true } }
    else { st with msg := { st.msg with chunkedEncoding := false } }
  else st

def storeLines (m : Outgoing) (lines : List Line) : Stored :=
  storeFraming (storeConnection (lines.foldl store ⟨m, [], false, false, false, false⟩))

def renderLine (line : Line) : JSString := line.1 ++ js ": " ++ line.2 ++ CRLF

/-- `_header` -/
def render (firstLine : JSString) (lines : List Line) : JSString :=
  firstLine ++ lines.flatMap renderLine ++ CRLF

/-- `_storeHeader` but for the flush at its end, for which it returns `sentExpect`. -/
def storeHeader (m : Outgoing) (firstLine : JSString) (lines : List Line) : Outgoing × Bool :=
  let st := storeLines m lines
  ({ st.msg with header := some (render firstLine st.lines), headerSent := false }, st.sentExpect)

/-! ### What the loop over the user's lines records -/

/-- The branches of `store`. -/
def isConnection (line : Line) : Bool := connectionExpression line.1

def isTransferEncoding (line : Line) : Bool :=
  !connectionExpression line.1 && transferEncodingExpression line.1

def isContentLength (line : Line) : Bool :=
  !connectionExpression line.1 && !transferEncodingExpression line.1 &&
    contentLengthExpression line.1

/-- A line that sets `_last`. -/
def saysClose (line : Line) : Bool := isConnection line && closeExpression line.2

/-- A line that sets `shouldKeepAlive`. -/
def saysKeepAlive (line : Line) : Bool := isConnection line && !closeExpression line.2

def saysChunked (line : Line) : Bool := isTransferEncoding line && chunkExpression line.2

def isExpect (line : Line) : Bool :=
  !connectionExpression line.1 && !transferEncodingExpression line.1 &&
    !contentLengthExpression line.1 && expectExpression line.1

/-- All flags only ever go from false to true. -/
theorem store_eq (st : Stored) (line : Line) :
    store st line =
      { msg := { st.msg with
          last := st.msg.last || saysClose line
          chunkedEncoding := st.msg.chunkedEncoding || saysChunked line
          shouldKeepAlive := st.msg.shouldKeepAlive || saysKeepAlive line }
        lines := st.lines ++ [line]
        sentConnectionHeader := st.sentConnectionHeader || isConnection line
        sentContentLengthHeader := st.sentContentLengthHeader || isContentLength line
        sentTransferEncodingHeader := st.sentTransferEncodingHeader || isTransferEncoding line
        sentExpect := st.sentExpect || isExpect line } := by
  unfold store saysClose saysChunked saysKeepAlive isExpect isContentLength isTransferEncoding
    isConnection
  dsimp only
  split_ifs with h₁ h₂ h₃ h₄ h₅ h₆
  · simp [h₁, h₂]
  · simp [h₁, h₂]
  · simp [h₁, h₃, h₄]
  · simp [h₁, h₃, h₄]
  · simp [h₁, h₃, h₅]
  · simp [h₁, h₃, h₅, h₆]
  · simp [h₁, h₃, h₅, h₆]

/-- The loop over the user's lines. -/
theorem foldl_store (st : Stored) (lines : List Line) :
    lines.foldl store st =
      { msg := { st.msg with
          last := st.msg.last || lines.any saysClose
          chunkedEncoding := st.msg.chunkedEncoding || lines.any saysChunked
          shouldKeepAlive := st.msg.shouldKeepAlive || lines.any saysKeepAlive }
        lines := st.lines ++ lines
        sentConnectionHeader := st.sentConnectionHeader || lines.any isConnection
        sentContentLengthHeader := st.sentContentLengthHeader || lines.any isContentLength
        sentTransferEncodingHeader :=
          st.sentTransferEncodingHeader || lines.any isTransferEncoding
        sentExpect := st.sentExpect || lines.any isExpect } := by
  induction lines generalizing st with
  | nil => simp
  | cons line lines ih =>
    rw [List.foldl_cons, ih, store_eq]
    simp only [List.any_cons, List.append_assoc, List.singleton_append, Bool.or_assoc]

theorem storeConnection_msg (st : Stored) :
    ∃ last, (storeConnection st).msg = { st.msg with last := last } := by
  unfold storeConnection
  split_ifs
  · exact ⟨_, rfl⟩
  · exact ⟨_, rfl⟩
  · exact ⟨_, rfl⟩

theorem storeFraming_msg (st : Stored) :
    ∃ last chunkedEncoding, (storeFraming st).msg =
      { st.msg with last := last, chunkedEncoding := chunkedEncoding } := by
  unfold storeFraming
  split_ifs
  · exact ⟨_, _, rfl⟩
  · exact ⟨_, _, rfl⟩
  · exact ⟨_, _, rfl⟩
  · exact ⟨_, _, rfl⟩

/-- `_storeHeader` sets three flags of the message. -/
theorem storeLines_msg (m : Outgoing) (lines : List Line) :
    ∃ last chunkedEncoding shouldKeepAlive, (storeLines m lines).msg =
      { m with
        last := last
        chunkedEncoding := chunkedEncoding
        shouldKeepAlive := shouldKeepAlive } := by
  unfold storeLines
  rw [foldl_store]
  obtain ⟨last, chunkedEncoding, hframing⟩ := storeFraming_msg (storeConnection _)
  obtain ⟨last', hconnection⟩ := storeConnection_msg _
  rw [hframing, hconnection]
  exact ⟨_, _, _, rfl⟩

/-! ### Whether the receiver can find the end of the message -/

/-- A field name that is exactly the given one, case aside. -/
def IsField (name : String) (line : Line) : Prop := toLowerCase line.1 = toLowerCase (js name)

instance (name : String) (line : Line) : Decidable (IsField name line) :=
  inferInstanceAs (Decidable (_ = _))

/-- The block frames the body: by its length, or by chunks that the message does send. -/
def Framed (st : Stored) : Prop :=
  ∃ line ∈ st.lines, IsField "Content-Length" line ∨
    (IsField "Transfer-Encoding" line ∧ st.msg.chunkedEncoding = true)

/-- The connection stays open if the user has given a framing header, or what passes for one. -/
def KeepsAlive (m : Outgoing) (lines : List Line) : Prop :=
  m.last = false ∧ lines.any saysClose = false ∧
    (lines.any isConnection = true ∨ (m.shouldKeepAlive = true ∧
      (lines.any isContentLength = true ∨ m.useChunkedEncodingByDefault = true)))

/-- Some line passes for a framing header, but the body is not framed by any. -/
def Misled (m : Outgoing) (lines : List Line) : Prop :=
  (∃ line ∈ lines, isContentLength line = true ∨ isTransferEncoding line = true) ∧
  (∀ line ∈ lines, ¬ IsField "Content-Length" line) ∧
  (∀ line ∈ lines, IsField "Transfer-Encoding" line →
    m.chunkedEncoding = false ∧ lines.any saysChunked = false)

def looped (m : Outgoing) (lines : List Line) : Stored :=
  lines.foldl store ⟨m, [], false, false, false, false⟩

theorem looped_eq (m : Outgoing) (lines : List Line) :
    looped m lines =
      { msg := { m with
          last := m.last || lines.any saysClose
          chunkedEncoding := m.chunkedEncoding || lines.any saysChunked
          shouldKeepAlive := m.shouldKeepAlive || lines.any saysKeepAlive }
        lines := lines
        sentConnectionHeader := lines.any isConnection
        sentContentLengthHeader := lines.any isContentLength
        sentTransferEncodingHeader := lines.any isTransferEncoding
        sentExpect := lines.any isExpect } := by
  unfold looped
  rw [foldl_store]
  simp

theorem any_saysKeepAlive (lines : List Line) (h : lines.any isConnection = false) :
    lines.any saysKeepAlive = false := by
  rw [List.any_eq_false] at h ⊢
  intro line hline
  have := h line hline
  simp only [saysKeepAlive]
  simp [this]

/-- `storeConnection` adds a `Connection` line at most, and closes when it must. -/
theorem storeConnection_looped (m : Outgoing) (lines : List Line) :
    ∃ auto last, (∀ line ∈ auto, line.1 = js "Connection") ∧
      (last = false ↔ KeepsAlive m lines) ∧
      storeConnection (looped m lines) = { looped m lines with
        lines := lines ++ auto
        msg := { (looped m lines).msg with last := last } } := by
  have hkeep := any_saysKeepAlive lines
  unfold storeConnection KeepsAlive
  rw [looped_eq]
  dsimp only
  by_cases hc : lines.any isConnection = false
  · rw [if_pos hc]
    by_cases hk : m.shouldKeepAlive = true ∧
        (lines.any isContentLength = true ∨ m.useChunkedEncodingByDefault = true)
    · refine ⟨[(js "Connection", js "keep-alive")], m.last || lines.any saysClose, by simp, ?_, ?_⟩
      · simp only [Bool.or_eq_false_iff, hc, hk, Bool.false_eq_true, false_or, and_true]
      · rw [if_pos (by simpa only [hkeep hc, Bool.or_false] using hk)]
    · refine ⟨[(js "Connection", js "close")], true, by simp, ?_, ?_⟩
      · simp only [hc, hk, Bool.true_eq_false, Bool.false_eq_true, or_self, and_false]
      · rw [if_neg (by simpa only [hkeep hc, Bool.or_false] using hk)]
  · rw [if_neg hc]
    refine ⟨[], m.last || lines.any saysClose, by simp, ?_, by simp⟩
    rw [Bool.not_eq_false] at hc
    simp only [Bool.or_eq_false_iff, hc, true_or, and_true]

theorem not_isField_connection {line : Line} (h : line.1 = js "Connection") :
    ¬ IsField "Content-Length" line ∧ ¬ IsField "Transfer-Encoding" line := by
  unfold IsField
  rw [h]
  decide

/-- Some line of the user is taken for a framing header. -/
def Announced (lines : List Line) : Prop :=
  ∃ line ∈ lines, isContentLength line = true ∨ isTransferEncoding line = true

theorem announced_iff (lines : List Line) : Announced lines ↔
    ¬ (lines.any isContentLength = false ∧ lines.any isTransferEncoding = false) := by
  rw [List.any_eq_false, List.any_eq_false]
  constructor
  · rintro ⟨line, hline, hor⟩ hnone
    rcases hor with hor | hor
    · exact hnone.1 line hline hor
    · exact hnone.2 line hline hor
  · intro hnone
    unfold Announced
    by_contra hall
    push Not at hall
    exact hnone ⟨fun line hline => by simp [hall line hline],
      fun line hline => by simp [hall line hline]⟩

/-- When the framing is left to the user's lines, the `Connection` line does not change it. -/
theorem framed_iff_not_misled {m : Outgoing} {lines auto : List Line} {st : Stored}
    (hlines : st.lines = lines ++ auto)
    (hchunked : st.msg.chunkedEncoding = (m.chunkedEncoding || lines.any saysChunked))
    (hauto : ∀ line ∈ auto, line.1 = js "Connection") (hsome : Announced lines) :
    Framed st ↔ ¬ Misled m lines := by
  unfold Framed
  rw [hlines, hchunked]
  constructor
  · rintro ⟨line, hline, hor⟩ ⟨_, hcl, hte⟩
    rcases List.mem_append.mp hline with hline | hline
    · rcases hor with hor | ⟨hor, hchunk⟩
      · exact hcl line hline hor
      · obtain ⟨h₁, h₂⟩ := hte line hline hor
        simp [h₁, h₂] at hchunk
    · obtain ⟨h₁, h₂⟩ := not_isField_connection (hauto line hline)
      rcases hor with hor | hor
      · exact h₁ hor
      · exact h₂ hor.1
  · intro hmis
    by_contra hnf
    apply hmis
    refine ⟨hsome, fun line hline hcl => hnf ?_, fun line hline hte => ?_⟩
    · exact ⟨line, List.mem_append_left _ hline, Or.inl hcl⟩
    · rw [← Bool.or_eq_false_iff]
      by_contra hchunk
      rw [Bool.not_eq_false] at hchunk
      exact hnf ⟨line, List.mem_append_left _ hline, Or.inr ⟨hte, hchunk⟩⟩

/-- A kept-alive message with a body is framed unless a header of the user only looks like one
that frames it. -/
theorem storeLines_framed_iff (m : Outgoing) (lines : List Line) :
    ((storeLines m lines).msg.hasBody = true → (storeLines m lines).msg.last = false →
      Framed (storeLines m lines)) ↔
    ¬ (m.hasBody = true ∧ KeepsAlive m lines ∧ Misled m lines) := by
  obtain ⟨auto, last, hauto, hlast, hst⟩ := storeConnection_looped m lines
  have hstore : storeLines m lines = storeFraming (storeConnection (looped m lines)) := rfl
  rw [hstore, hst, looped_eq]
  unfold storeFraming
  dsimp only
  by_cases hnone : lines.any isContentLength = false ∧ lines.any isTransferEncoding = false
  · have hmis : ¬ Misled m lines := fun hmisled => (announced_iff lines).mp hmisled.1 hnone
    rw [if_pos hnone]
    simp only [hmis, and_false, not_false_iff, iff_true]
    intro hbody hopen
    by_cases hb : m.hasBody = true
    · rw [if_pos hb] at hopen ⊢
      by_cases hu : m.useChunkedEncodingByDefault = true
      · rw [if_pos hu]
        exact ⟨(js "Transfer-Encoding", js "chunked"), by simp, Or.inr ⟨rfl, rfl⟩⟩
      · rw [if_neg hu] at hopen
        cases hopen
    · rw [if_neg hb] at hbody
      exact absurd hbody hb
  · rw [if_neg hnone]
    have hframed : Framed
        { msg := { m with
            last := last
            chunkedEncoding := m.chunkedEncoding || lines.any saysChunked
            shouldKeepAlive := m.shouldKeepAlive || lines.any saysKeepAlive }
          lines := lines ++ auto
          sentConnectionHeader := lines.any isConnection
          sentContentLengthHeader := lines.any isContentLength
          sentTransferEncodingHeader := lines.any isTransferEncoding
          sentExpect := lines.any isExpect } ↔ ¬ Misled m lines :=
      framed_iff_not_misled rfl rfl hauto ((announced_iff lines).mpr hnone)
    rw [hframed, hlast]
    tauto

/-- `X-Content-Length` is taken for `Content-Length`. -/
theorem storeLines_unframed :
    ¬ ∀ (m : Outgoing) (lines : List Line), (storeLines m lines).msg.hasBody = true →
      (storeLines m lines).msg.last = false → Framed (storeLines m lines) := by
  intro h
  have hframed := h .new [(js "X-Content-Length", js "5")] (by decide) (by decide)
  revert hframed
  unfold Framed
  decide

end NodeJS.Http
