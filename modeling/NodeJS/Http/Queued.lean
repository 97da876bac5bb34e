import NodeJS.Http.Chunked
import NodeJS.Http.NoBody

/-! A response that waits for its socket against one that owns it: what `_buffer` must not do
for the two to send the same bytes. -/
namespace NodeJS.Http

/-! ### One string or Buffer in the queue -/

/-- The encoding a string ends up with in the queue. -/
def effective (output : List (Chunk × EncArg)) (encoding : EncArg) : EncArg :=
  match output.getLast? with
  | some (.str _, lastEncoding) => if encoding = none then lastEncoding else encoding
  | _ => encoding

/-- A Buffer at the end of the queue is turned into a string if a string with its encoding
follows; it has to survive that. -/
def BufferKept (output : List (Chunk × EncArg)) (encoding : EncArg) : Prop :=
  match output.getLast? with
  | some (.buffer b, lastEncoding) =>
    encoding.isSome = true → lastEncoding = encoding →
      encode encoding.encoding (utf8Slice b) = b
  | _ => True

instance (output : List (Chunk × EncArg)) (encoding : EncArg) :
    Decidable (BufferKept output encoding) :=
  match h : output.getLast? with
  | some (.buffer b, lastEncoding) =>
    decidable_of_iff (encoding.isSome = true → lastEncoding = encoding →
      encode encoding.encoding (utf8Slice b) = b) (by rw [BufferKept, h])
  | some (.str _, _) => isTrue (by rw [BufferKept, h]; trivial)
  | none => isTrue (by rw [BufferKept, h]; trivial)

/-- The text may be queued: it has the bytes it would have in the encoding `direct`. -/
def TextOk (output : List (Chunk × EncArg)) (text : JSString) (encoding : EncArg)
    (direct : Encoding) : Prop :=
  encode (effective output encoding).encoding text = encode direct text ∧
    (text ≠ [] → BufferKept output encoding)

instance (output : List (Chunk × EncArg)) (text : JSString) (encoding : EncArg)
    (direct : Encoding) : Decidable (TextOk output text encoding direct) :=
  inferInstanceAs (Decidable (_ ∧ _))

/-- The strings in the queue are concatenated, which base64 would not allow. -/
def Texts (output : List (Chunk × EncArg)) : Prop :=
  ∀ t e, (Chunk.str t, e) ∈ output → e.encoding.keepsAscii = true

theorem texts_nil : Texts [] := by
  intro t e h
  cases h

theorem Texts.snoc {output : List (Chunk × EncArg)} (h : Texts output) {w : Chunk × EncArg}
    (hw : Framable w) : Texts (output ++ [w]) := by
  intro t e hmem
  rcases List.mem_append.mp hmem with hmem | hmem
  · exact h t e hmem
  · rw [← List.mem_singleton.mp hmem] at hw
    exact hw

theorem Texts.left {l r : List (Chunk × EncArg)} (h : Texts (l ++ r)) : Texts l :=
  fun t e hmem => h t e (List.mem_append_left _ hmem)

theorem buffer_text {output : List (Chunk × EncArg)} (h : Texts output) {text : JSString}
    {encoding : EncArg} (he : encoding.encoding.keepsAscii = true) {direct : Encoding}
    (hok : TextOk output text encoding direct) :
    Texts (buffer output (.str text) encoding) ∧
      wireBytes (buffer output (.str text) encoding) = wireBytes output ++ encode direct text := by
  obtain ⟨henc, hbuf⟩ := hok
  by_cases hlen : (Chunk.str text).length = 0
  · obtain rfl : text = [] := List.length_eq_zero_iff.mp hlen
    unfold buffer
    rw [if_pos hlen, encode_nil, List.append_nil]
    exact ⟨h, rfl⟩
  · have hne : text ≠ [] := fun h => hlen (List.length_eq_zero_iff.mpr h)
    have hpush : Texts (output ++ [(.str text, encoding)]) ∧
        wireBytes (output ++ [(.str text, encoding)]) =
          wireBytes output ++ encode encoding.encoding text := by
      refine ⟨h.snoc he, ?_⟩
      simp [Chunk.encode]
    unfold effective at henc
    have hkept := hbuf hne
    unfold BufferKept at hkept
    unfold buffer
    rw [if_neg hlen]
    rcases List.eq_nil_or_concat' output with rfl | ⟨init, ⟨last, lastEncoding⟩, rfl⟩
    · rw [← henc]
      exact hpush
    · rw [List.getLast?_concat] at henc hkept ⊢
      cases last with
      | str lastData =>
        have hlast : lastEncoding.encoding.keepsAscii = true :=
          h lastData lastEncoding (by simp)
        dsimp only at henc ⊢
        split_ifs with hmerge
        · have heff : (if encoding = none then lastEncoding else encoding) = lastEncoding := by
            rcases hmerge with ⟨_, hsame⟩ | hnone
            · rw [hsame, ite_self]
            · rw [if_pos hnone]
          rw [heff] at henc
          rw [List.dropLast_concat, ← henc]
          refine ⟨h.left.snoc hlast, ?_⟩
          simp [Chunk.encode, encode_append (lastEncoding.encoding.keepsAscii_ne_base64 hlast)]
        · have heff : (if encoding = none then lastEncoding else encoding) = encoding :=
            if_neg fun hnone => hmerge (Or.inr hnone)
          rw [heff] at henc
          rw [← henc]
          exact hpush
      | buffer b =>
        dsimp only at henc hkept ⊢
        split_ifs with hmerge
        · obtain ⟨hsome, rfl⟩ := hmerge
          rw [List.dropLast_concat, ← henc]
          refine ⟨h.left.snoc he, ?_⟩
          simp [Chunk.encode, encode_append (lastEncoding.encoding.keepsAscii_ne_base64 he),
            hkept hsome rfl]
        · rw [← henc]
          exact hpush

/-! ### One `_send` -/

/-- The bytes of one `_send`, for a string in the encoding `direct`. -/
def sendBytes (m : Outgoing) (data : Chunk) (direct : Encoding) : Bytes :=
  match data with
  | .str t => encode direct (pendingHeader m ++ t)
  | .buffer b => encode .ascii (pendingHeader m) ++ b

/-- One `_send` of a queued message keeps to what is sent directly. With a Buffer the header is
put before everything that is queued already. -/
def SendOk (m : Outgoing) (data : Chunk) (encoding : EncArg) (direct : Encoding) : Prop :=
  m.finished = false ∧
    match data with
    | .str t => TextOk m.output (pendingHeader m ++ t) encoding direct
    | .buffer _ => encode .ascii (pendingHeader m) ++ wireBytes m.output =
        wireBytes m.output ++ encode .ascii (pendingHeader m)

instance (m : Outgoing) (encoding : EncArg) (direct : Encoding) :
    ∀ data, Decidable (SendOk m data encoding direct)
  | .str _ => inferInstanceAs (Decidable (_ ∧ TextOk _ _ _ _))
  | .buffer _ => inferInstanceAs (Decidable (_ ∧ _ = _))

theorem raw_queued {m : Outgoing} (ha : m.attached = false) (data : Chunk) (encoding : EncArg) :
    raw ⟨m, ⟨[]⟩⟩ data encoding =
      ⟨{ m with output := buffer m.output data encoding }, ⟨[]⟩⟩ := by
  have hdetached : ¬ m.attached = true := by simp [ha]
  unfold raw
  rw [if_neg hdetached]

theorem buffer_buffer (output : List (Chunk × EncArg)) (b : Bytes) (encoding : EncArg) :
    wireBytes (buffer output (.buffer b) encoding) = wireBytes output ++ b ∧
      (Texts output → Texts (buffer output (.buffer b) encoding)) := by
  unfold buffer
  split_ifs with hlen
  · obtain rfl : b = [] := List.length_eq_zero_iff.mp hlen
    exact ⟨(List.append_nil _).symm, id⟩
  · refine ⟨by simp [Chunk.encode], ?_⟩
    intro h
    exact h.snoc trivial

theorem sendTo_queued {m : Outgoing} (ha : m.attached = false) (h : Texts m.output) {data : Chunk}
    {encoding : EncArg} (hw : Framable (data, encoding)) {direct : Encoding}
    (hok : SendOk m data encoding direct) :
    ∃ output, sendTo ⟨m, ⟨[]⟩⟩ data encoding =
        ⟨{ m with output := output, headerSent := true }, ⟨[]⟩⟩ ∧
      Texts output ∧ wireBytes output = wireBytes m.output ++ sendBytes m data direct := by
  obtain ⟨-, hok⟩ := hok
  cases data with
  | str t =>
    have he : encoding.encoding.keepsAscii = true := hw
    obtain ⟨htexts, hbytes⟩ := buffer_text h he hok
    refine ⟨_, ?_, htexts, hbytes⟩
    unfold sendTo pendingHeader
    split_ifs with hsent
    · rw [raw_queued ha, ← hsent]
      rfl
    · exact raw_queued (m := { m with headerSent := true }) ha _ _
  | buffer b =>
    unfold sendTo sendBytes
    dsimp only at hok ⊢
    unfold pendingHeader at hok ⊢
    split_ifs at hok ⊢ with hsent
    · obtain ⟨hbytes, htexts⟩ := buffer_buffer m.output b encoding
      refine ⟨buffer m.output (.buffer b) encoding, ?_, htexts h, ?_⟩
      · rw [raw_queued ha, ← hsent]
      · rw [hbytes]
        rfl
    · obtain ⟨hbytes, htexts⟩ :=
        buffer_buffer ((.str m.headerText, some (encName .ascii)) :: m.output) b encoding
      refine ⟨_, raw_queued (m := { m with
        output := (.str m.headerText, some (encName .ascii)) :: m.output
        headerSent := true }) ha _ _, htexts ?_, ?_⟩
      · intro t e hmem
        rcases List.mem_cons.mp hmem with hmem | hmem
        · injection hmem with _ he
          rw [he]
          rfl
        · exact h t e hmem
      · rw [hbytes, wireBytes_cons, ← List.append_assoc, ← hok]
        rfl

theorem sendTo_owner {d : Endpoint Log} (ha : d.msg.attached = true) (ho : d.msg.output = [])
    {data : Chunk} {encoding : EncArg} (hw : Framable (data, encoding)) :
    sendTo d data encoding =
        ⟨{ d.msg with headerSent := true }, ⟨d.sock.writes ++ pieces d.msg data encoding⟩⟩ ∧
      wireBytes (pieces d.msg data encoding) = sendBytes d.msg data encoding.encoding := by
  refine ⟨sendTo_direct ha ho data encoding, ?_⟩
  unfold pieces sendBytes pendingHeader
  cases data with
  | str t =>
    split_ifs
    · simp [Chunk.encode]
    · simp [Chunk.encode]
  | buffer b =>
    split_ifs
    · simp [Chunk.encode]
    · simp [Chunk.encode, EncArg.encoding, encName]

/-! ### The two messages side by side -/

/-- The message with the socket has sent what the queued one has in its queue. After `end` it
has given the socket back, and what is written then is lost. -/
structure Twin (d q : Endpoint Log) : Prop where
  attached : q.msg.attached = false
  unsent : q.sock = ⟨[]⟩
  texts : Texts q.msg.output
  wire : wireBytes d.sock.writes = wireBytes q.msg.output
  live : q.msg.finished = false → d.msg = { q.msg with output := [], attached := true }
  dead : q.msg.finished = true → ∃ output, d.msg = { q.msg with output := output }

/-- The two in a state before `end`. -/
theorem twin_of_live {m : Outgoing} {writes : List (Chunk × EncArg)} (ha : m.attached = false)
    (htexts : Texts m.output) (hwire : wireBytes writes = wireBytes m.output)
    (hf : m.finished = false) :
    Twin ⟨{ m with output := [], attached := true }, ⟨writes⟩⟩ ⟨m, ⟨[]⟩⟩ := by
  refine ⟨ha, rfl, htexts, hwire, fun _ => rfl, ?_⟩
  intro hfin
  rw [hf] at hfin
  cases hfin

/-- All sends of a call, each with the encoding its string has when it is sent directly. -/
def SendsOk : Outgoing → List (Chunk × EncArg × Encoding) → Prop
  | _, [] => True
  | m, (data, encoding, direct) :: l =>
    SendOk m data encoding direct ∧ SendsOk (sendTo ⟨m, ⟨[]⟩⟩ data encoding).msg l

instance decidableSendsOk : ∀ (m : Outgoing) (l : List (Chunk × EncArg × Encoding)),
    Decidable (SendsOk m l)
  | _, [] => inferInstanceAs (Decidable True)
  | m, (data, encoding, direct) :: l =>
    have := decidableSendsOk (sendTo ⟨m, ⟨[]⟩⟩ data encoding).msg l
    inferInstanceAs (Decidable (SendOk m data encoding direct ∧ SendsOk _ l))

/-- Sends whose strings are sent in their own encodings. -/
def own (l : List (Chunk × EncArg)) : List (Chunk × EncArg × Encoding) :=
  l.map fun w => (w.1, w.2, w.2.encoding)

theorem Twin.after_sendTo {d q : Endpoint Log} (h : Twin d q) {data : Chunk} {encoding : EncArg}
    (hw : Framable (data, encoding)) (hok : SendOk q.msg data encoding encoding.encoding) :
    Twin (sendTo d data encoding) (sendTo q data encoding) := by
  obtain ⟨m, l⟩ := q
  obtain rfl : l = ⟨[]⟩ := h.unsent
  have hmsg := h.live hok.1
  obtain ⟨output, hqueued, htexts, hbytes⟩ := sendTo_queued h.attached h.texts hw hok
  obtain ⟨howner, hpieces⟩ := sendTo_owner (d := d) (by rw [hmsg]) (by rw [hmsg]) hw
  rw [hqueued, howner, hmsg]
  apply twin_of_live (m := { m with output := output, headerSent := true }) h.attached htexts ?_
    hok.1
  rw [wireBytes_append, ← hmsg, hpieces, h.wire, hbytes, hmsg]
  rfl

theorem Twin.after_sendAll {d q : Endpoint Log} (h : Twin d q) {l : List (Chunk × EncArg)}
    (hl : ∀ w ∈ l, Framable w) (hok : SendsOk q.msg (own l)) :
    Twin (sendAll d l) (sendAll q l) := by
  induction l generalizing d q with
  | nil => exact h
  | cons w l ih =>
    obtain ⟨hfirst, hrest⟩ := hok
    have hq : q = ⟨q.msg, ⟨[]⟩⟩ := by rw [← h.unsent]
    rw [← hq] at hrest
    exact ih (h.after_sendTo (hl w List.mem_cons_self) hfirst)
      (fun w hw => hl w (List.mem_cons_of_mem _ hw)) hrest

/-! ### Headers -/

/-- `_storeHeader` looks neither at the queue nor at the connection. -/
theorem storeLines_frame (m : Outgoing) (output : List (Chunk × EncArg)) (attached : Bool)
    (lines : List Line) :
    storeLines { m with output := output, attached := attached } lines =
      { storeLines m lines with
        msg := { (storeLines m lines).msg with output := output, attached := attached } } := by
  unfold storeLines
  rw [foldl_store, foldl_store]
  unfold storeConnection
  dsimp only
  split_ifs
  · unfold storeFraming
    dsimp only
    split_ifs <;> rfl
  · unfold storeFraming
    dsimp only
    split_ifs <;> rfl
  · unfold storeFraming
    dsimp only
    split_ifs <;> rfl

/-- The two messages differ in the queue and the connection only. -/
theorem Twin.msg {d q : Endpoint Log} (h : Twin d q) :
    d.msg = { q.msg with output := d.msg.output, attached := d.msg.attached } := by
  cases hf : q.msg.finished with
  | false =>
    rw [h.live hf]
  | true =>
    obtain ⟨output, hmsg⟩ := h.dead hf
    rw [hmsg]

/-- A change to other fields is made to both. -/
theorem Twin.map {d q : Endpoint Log} (h : Twin d q) {f : Outgoing → Outgoing}
    (hf : ∀ m output attached, f { m with output := output, attached := attached } =
      { f m with output := output, attached := attached })
    (hfin : ∀ m, (f m).finished = m.finished) :
    Twin { d with msg := f d.msg } { q with msg := f q.msg } := by
  have hsame : f q.msg = { f q.msg with
      output := q.msg.output, attached := q.msg.attached } := hf q.msg _ _
  have hout : (f q.msg).output = q.msg.output := by rw [hsame]
  have hatt : (f q.msg).attached = q.msg.attached := by rw [hsame]
  refine ⟨hatt.trans h.attached, h.unsent, ?_, ?_, ?_, ?_⟩
  · show Texts (f q.msg).output
    rw [hout]
    exact h.texts
  · show wireBytes d.sock.writes = wireBytes (f q.msg).output
    rw [hout]
    exact h.wire
  · intro hopen
    rw [hfin] at hopen
    show f d.msg = _
    rw [h.live hopen, hf]
  · intro hclosed
    rw [hfin] at hclosed
    obtain ⟨output, hmsg⟩ := h.dead hclosed
    refine ⟨output, ?_⟩
    have hd : d.msg = { q.msg with output := output, attached := q.msg.attached } := hmsg
    show f d.msg = _
    rw [hd, hf, ← hatt]

/-- Where a header has `Expect`, it is sent at once. -/
def headSends (sentExpect : Bool) : List (Chunk × EncArg) :=
  if sentExpect then [(.str [], none)] else []

def HeadOk (m : Outgoing) (head : Head) : Prop :=
  headFails m = true ∨
    SendsOk (storeHeader (m.withStatus head.statusCode)
        (statusLine head.statusCode head.reasonPhrase) (headersFor m head.obj).lines).1
      (own (headSends (storeHeader (m.withStatus head.statusCode)
        (statusLine head.statusCode head.reasonPhrase) (headersFor m head.obj).lines).2))

instance (m : Outgoing) (head : Head) : Decidable (HeadOk m head) :=
  inferInstanceAs (Decidable (_ ∨ SendsOk _ _))

theorem Twin.after_headTo {d q : Endpoint Log} (h : Twin d q) (firstLine : JSString)
    (lines : List Line)
    (hok : SendsOk (storeHeader q.msg firstLine lines).1
      (own (headSends (storeHeader q.msg firstLine lines).2))) :
    Twin (headTo d firstLine lines) (headTo q firstLine lines) := by
  have hstore : ∀ m output attached,
      storeHeader { m with output := output, attached := attached } firstLine lines =
        ({ (storeHeader m firstLine lines).1 with output := output, attached := attached },
          (storeHeader m firstLine lines).2) := by
    intro m output attached
    unfold storeHeader
    rw [storeLines_frame]
  have hfin : ∀ m, (storeHeader m firstLine lines).1.finished = m.finished := by
    intro m
    obtain ⟨last, chunkedEncoding, shouldKeepAlive, hmsg⟩ := storeLines_msg m lines
    show (storeLines m lines).msg.finished = m.finished
    rw [hmsg]
  have hexpect : (storeHeader d.msg firstLine lines).2 = (storeHeader q.msg firstLine lines).2 := by
    rw [h.msg, hstore]
  have hstored := h.map (f := fun m => (storeHeader m firstLine lines).1)
    (fun m output attached => by rw [hstore]) hfin
  unfold headTo
  rw [hexpect]
  refine hstored.after_sendAll ?_ hok
  intro w hw
  split_ifs at hw
  · rw [List.mem_singleton.mp hw]
    rfl
  · cases hw

theorem Twin.after_writeHeadTo {d q : Endpoint Log} (h : Twin d q) (head : Head)
    (hok : HeadOk q.msg head) :
    Twin (writeHeadTo d head.statusCode head.reasonPhrase head.obj)
      (writeHeadTo q head.statusCode head.reasonPhrase head.obj) := by
  have hfail : headFails d.msg = headFails q.msg := by
    rw [h.msg]
    rfl
  have hheaders : headersFor d.msg head.obj = headersFor q.msg head.obj := by
    rw [h.msg]
    rfl
  unfold writeHeadTo
  rw [hfail, hheaders]
  split_ifs with hc
  · exact h.map (f := fun m => { m with statusCode := head.statusCode }) (fun _ _ _ => rfl)
      (fun _ => rfl)
  · have hstatus := h.map (f := fun m => m.withStatus head.statusCode) (fun _ _ _ => rfl)
      (fun _ => rfl)
    exact hstatus.after_headTo _ _ (hok.resolve_left hc)

/-! ### Calls -/

def ImplicitOk (m : Outgoing) : Prop := m.header.isNone = true → HeadOk m ⟨m.statusCode, none, none⟩

instance (m : Outgoing) : Decidable (ImplicitOk m) := inferInstanceAs (Decidable (_ → HeadOk _ _))

theorem Twin.after_implicitTo {d q : Endpoint Log} (h : Twin d q) (hok : ImplicitOk q.msg) :
    Twin (implicitTo d) (implicitTo q) := by
  have hheader : d.msg.header = q.msg.header := by rw [h.msg]
  have hstatus : d.msg.statusCode = q.msg.statusCode := by rw [h.msg]
  unfold implicitTo
  rw [hheader, hstatus]
  split_ifs with hc
  · exact h.after_writeHeadTo ⟨q.msg.statusCode, none, none⟩ (hok hc)
  · exact h

theorem framable_bodySends (m : Outgoing) {chunk : Chunk} {e : EncArg}
    (h : Framable (chunk, e)) : ∀ w ∈ bodySends m chunk e, Framable w := by
  intro w hw
  unfold bodySends at hw
  split_ifs at hw
  · cases hw
  · cases chunk with
    | str t =>
      rw [List.mem_singleton.mp hw]
      exact h
    | buffer b =>
      simp only [List.mem_cons, List.not_mem_nil, or_false] at hw
      rcases hw with rfl | rfl | rfl
      · rfl
      · trivial
      · rfl
  · rw [List.mem_singleton.mp hw]
    exact h

/-- Whether `end` takes the hot path when the message owns its socket. -/
def hotEnd (m : Outgoing) (data : Option Chunk) : Bool :=
  hotPath { m with output := [], attached := true } (endData m data) true

/-- The sends of `end`. On the hot path the last chunk goes out in the encoding of the data. -/
def closeSends (m : Outgoing) (data : Option Chunk) (e : EncArg) :
    List (Chunk × EncArg × Encoding) :=
  (match endData m data with
    | some chunk => own (bodySends m chunk e)
    | none => []) ++
  [((lastSend m).1, (lastSend m).2, if hotEnd m data then e.encoding else .utf8)]

theorem closeSends_of_not_hot {m : Outgoing} {data : Option Chunk} (h : hotEnd m data = false)
    (e : EncArg) : closeSends m data e = own (endSends m data e) := by
  unfold closeSends endSends own
  rw [h, lastSend_eq]
  cases endData m data with
  | none => rfl
  | some chunk => simp [EncArg.encoding]

theorem closeTo_queued {q : Endpoint Log} (ha : q.msg.attached = false) (data : Option Chunk)
    (e : EncArg) : closeTo q data e = sendAll q (endSends q.msg data e) := by
  unfold closeTo
  rw [if_neg (by simp [hotPath, ha])]

/-- `end` on the hot path against a string and the last chunk in the queue. -/
theorem Twin.after_hot {d q : Endpoint Log} (h : Twin d q) {t : JSString} {e : EncArg}
    {data : Option Chunk} (hb : q.msg.hasBody = true) (hdata : endData q.msg data = some (.str t))
    (ht : t ≠ []) (hsent : q.msg.headerSent = false) (he : e.encoding.keepsAscii = true)
    (hok : SendsOk q.msg [(.str (chunkText q.msg t e), e, e.encoding),
      (.str (if q.msg.chunkedEncoding then lastChunk q.msg else []), none, e.encoding)]) :
    Twin ⟨{ d.msg with headerSent := true },
        ⟨d.sock.writes ++ [(.str (hotText d.msg t e), e)]⟩⟩
      (sendAll q (endSends q.msg data e)) := by
  obtain ⟨m, l⟩ := q
  obtain rfl : l = ⟨[]⟩ := h.unsent
  obtain ⟨hok₁, hok₂, -⟩ := hok
  have hmsg := h.live hok₁.1
  obtain ⟨output₁, hsend₁, htexts₁, hbytes₁⟩ :=
    sendTo_queued h.attached h.texts (show Framable (.str (chunkText m t e), e) from he) hok₁
  rw [hsend₁] at hok₂
  obtain ⟨output₂, hsend₂, htexts₂, hbytes₂⟩ :=
    sendTo_queued (m := { m with output := output₁, headerSent := true }) h.attached htexts₁
      (show Framable (.str (if m.chunkedEncoding then lastChunk m else []), none) from rfl) hok₂
  have hsends : endSends m data e =
      [(.str (chunkText m t e), e),
        (.str (if m.chunkedEncoding then lastChunk m else []), none)] := by
    unfold endSends
    rw [hdata, lastSend_eq]
    dsimp only
    rw [bodySends_str hb ht]
    rfl
  have hrun : sendAll ⟨m, ⟨[]⟩⟩ (endSends m data e) =
      ⟨{ m with output := output₂, headerSent := true }, ⟨[]⟩⟩ := by
    rw [hsends, sendAll, List.foldl_cons, List.foldl_cons, List.foldl_nil, hsend₁, hsend₂]
  have hhot : hotText d.msg t e = pendingHeader m ++ chunkText m t e ++
      if m.chunkedEncoding then lastChunk m else [] := by
    rw [hmsg]
    exact hotText_eq (m := { m with output := [], attached := true }) hsent t e
  rw [hrun, hmsg]
  apply twin_of_live (m := { m with output := output₂, headerSent := true }) h.attached htexts₂ ?_
    hok₁.1
  rw [hmsg] at hhot
  rw [wireBytes_append, h.wire, hbytes₂, hbytes₁, hhot]
  have hne := e.encoding.keepsAscii_ne_base64 he
  simp [sendBytes, Chunk.encode, encode_append hne, pendingHeader]

theorem Twin.after_closeTo {d q : Endpoint Log} (h : Twin d q) (hf : q.msg.finished = false)
    {data : Option Chunk} {e : EncArg} (hdata : ∀ chunk ∈ data, Framable (chunk, e))
    (hok : SendsOk q.msg (closeSends q.msg data e)) :
    Twin (closeTo d data e) (closeTo q data e) := by
  have hend : endData d.msg data = endData q.msg data := by
    rw [h.msg]
    rfl
  have hhot : hotPath d.msg (endData d.msg data) true = hotEnd q.msg data := by
    rw [hend, h.live hf]
    rfl
  rw [closeTo_queued h.attached]
  cases hcase : hotEnd q.msg data with
  | false =>
    have hsends : endSends d.msg data e = endSends q.msg data e := by
      unfold endSends
      rw [hend, h.msg]
      rfl
    rw [closeSends_of_not_hot hcase] at hok
    unfold closeTo
    rw [hhot, hcase, if_neg Bool.false_ne_true, hsends]
    refine h.after_sendAll ?_ hok
    intro w hw
    unfold endSends at hw
    rcases List.mem_append.mp hw with hw | hw
    · unfold endData at hw
      split at hw
      · next chunk heq =>
        split_ifs at heq with hb
        · exact framable_bodySends q.msg (hdata chunk heq) w hw
      · cases hw
    · rw [List.mem_singleton.mp hw, lastSend_eq]
      rfl
  | true =>
    obtain ⟨t, hstr, ht, hsent⟩ : ∃ t, endData q.msg data = some (.str t) ∧ t ≠ [] ∧
        q.msg.headerSent = false := by
      unfold hotEnd hotPath at hcase
      simp only [Bool.and_eq_true, decide_eq_true_eq] at hcase
      obtain ⟨⟨⟨⟨hsent, hlen⟩, -⟩, -⟩, -⟩ := hcase
      cases hdata' : endData q.msg data with
      | none => simp [hdata'] at hlen
      | some chunk =>
        cases chunk with
        | buffer b => simp [hdata'] at hlen
        | str t =>
          refine ⟨t, rfl, ?_, hsent⟩
          intro hnil
          simp [hdata', hnil] at hlen
    have hb : q.msg.hasBody = true := by
      unfold endData at hstr
      split_ifs at hstr with hb
      · exact hb
    have hmem : data = some (.str t) := by
      unfold endData at hstr
      rwa [if_pos hb] at hstr
    have he : e.encoding.keepsAscii = true := hdata (.str t) hmem
    have hsends : closeSends q.msg data e =
        [(.str (chunkText q.msg t e), e, e.encoding),
          (.str (if q.msg.chunkedEncoding then lastChunk q.msg else []), none, e.encoding)] := by
      unfold closeSends
      rw [hcase, hstr, if_pos rfl, lastSend_eq]
      dsimp only
      rw [bodySends_str hb ht]
      rfl
    rw [hsends] at hok
    unfold closeTo
    rw [hhot, hcase, if_pos rfl, hend, hstr]
    exact h.after_hot hb hstr ht hsent he hok

/-! ### Runs -/

def continueText : JSString := js "HTTP/1.1 100 Continue" ++ CRLF ++ CRLF

/-- One call on a queued message keeps to what a message with a socket sends. -/
def CallOk (m : Outgoing) : Call → Prop
  | .writeContinue =>
    m.finished = false ∧ TextOk m.output continueText (some (encName .ascii)) .ascii
  | .writeHead statusCode reasonPhrase obj => HeadOk m ⟨statusCode, reasonPhrase, obj⟩
  | .write chunk e =>
    ImplicitOk m ∧ SendsOk (implicitTo ⟨m, ⟨[]⟩⟩).msg
      (own (bodySends (implicitTo ⟨m, ⟨[]⟩⟩).msg chunk e))
  | .end data e =>
    m.finished = true ∨ (ImplicitOk m ∧ SendsOk (implicitTo ⟨m, ⟨[]⟩⟩).msg
      (closeSends (implicitTo ⟨m, ⟨[]⟩⟩).msg data e))

instance (m : Outgoing) : ∀ c, Decidable (CallOk m c)
  | .writeContinue => inferInstanceAs (Decidable (_ ∧ TextOk _ _ _ _))
  | .writeHead _ _ _ => inferInstanceAs (Decidable (HeadOk _ _))
  | .write _ _ => inferInstanceAs (Decidable (ImplicitOk _ ∧ SendsOk _ _))
  | .end _ _ => inferInstanceAs (Decidable (_ ∨ (ImplicitOk _ ∧ SendsOk _ _)))

/-- Strings in UTF-8, ASCII or binary. -/
def Call.Framable : Call → Prop
  | .write chunk e => Http.Framable (chunk, e)
  | .end data e => ∀ chunk ∈ data, Http.Framable (chunk, e)
  | _ => True

theorem Twin.after_continue {d q : Endpoint Log} (h : Twin d q)
    (hok : CallOk q.msg .writeContinue) :
    Twin (exec d .writeContinue) (exec q .writeContinue) := by
  obtain ⟨m, l⟩ := q
  obtain rfl : l = ⟨[]⟩ := h.unsent
  obtain ⟨hf, htext⟩ := hok
  have hmsg := h.live hf
  have hkeep : (EncArg.encoding (some (encName .ascii))).keepsAscii = true := rfl
  obtain ⟨htexts, hbytes⟩ := buffer_text h.texts hkeep htext
  have hdirect : raw d (.str continueText) (some (encName .ascii)) =
      ⟨d.msg, ⟨d.sock.writes ++ [(.str continueText, some (encName .ascii))]⟩⟩ := by
    unfold raw
    rw [hmsg, if_pos rfl, List.append_nil]
  have hqueued := raw_queued h.attached (.str continueText) (some (encName .ascii))
  have htwin : Twin (raw d (.str continueText) (some (encName .ascii)))
      (raw ⟨m, ⟨[]⟩⟩ (.str continueText) (some (encName .ascii))) := by
    rw [hdirect, hqueued, hmsg]
    generalize buffer m.output (.str continueText) (some (encName .ascii)) = output at htexts hbytes
    apply twin_of_live (m := { m with output := output }) h.attached htexts ?_ hf
    rw [wireBytes_append, h.wire, hbytes, wireBytes_cons, wireBytes_nil, List.append_nil]
    rfl
  rw [exec_writeContinue, exec_writeContinue]
  exact htwin.map (f := fun m => { m with sent100 := true }) (fun _ _ _ => rfl) (fun _ => rfl)

theorem Twin.after_finish {d q : Endpoint Log} (h : Twin d q) (hf : q.msg.finished = false) :
    Twin { d with msg := detachSocket { d.msg with finished := true } }
      { q with msg := { q.msg with finished := true } } := by
  have hmsg := h.live hf
  refine ⟨h.attached, h.unsent, h.texts, h.wire, ?_, ?_⟩
  · intro hopen
    cases hopen
  · intro _
    refine ⟨[], ?_⟩
    show detachSocket { d.msg with finished := true } = _
    rw [hmsg]
    unfold detachSocket
    dsimp only
    rw [← h.attached]

theorem Twin.eq_mk {d q : Endpoint Log} (h : Twin d q) : (⟨q.msg, ⟨[]⟩⟩ : Endpoint Log) = q := by
  rw [← h.unsent]

theorem Twin.after_end {d q : Endpoint Log} (h : Twin d q) {data : Option Chunk} {e : EncArg}
    (hdata : ∀ chunk ∈ data, Framable (chunk, e)) (hok : CallOk q.msg (.end data e)) :
    Twin (exec d (.end data e)) (exec q (.end data e)) := by
  have hfin : d.msg.finished = q.msg.finished := by rw [h.msg]
  cases hf : q.msg.finished with
  | true =>
    rw [exec_end, exec_end]
    unfold endFinishes endTo
    rw [hfin, hf, if_pos rfl, if_pos rfl]
    exact h
  | false =>
    obtain ⟨himplicit, hsends⟩ := hok.resolve_left (by simp [hf])
    rw [h.eq_mk] at hsends
    have hopen : (implicitTo q).msg.finished = false := by
      rw [implicitTo_finished, hf]
    have hclose := (h.after_implicitTo himplicit).after_closeTo hopen hdata hsends
    have hto : ∀ s : Endpoint Log, s.msg.finished = false →
        endTo s data e = { closeTo (implicitTo s) data e with
          msg := { (closeTo (implicitTo s) data e).msg with finished := true } } := by
      intro s hs
      unfold endTo
      rw [hs, if_neg Bool.false_ne_true]
    have hstill : (closeTo (implicitTo q) data e).msg.finished = false := by
      rw [closeTo_queued (h.after_implicitTo himplicit).attached]
      obtain ⟨output, headerSent, hmsg⟩ := sendAll_msg (implicitTo q)
        (endSends (implicitTo q).msg data e)
      rw [hmsg]
      exact hopen
    have hd : endFinishes d data e = true := by
      unfold endFinishes
      rw [hto d (hfin.trans hf), hclose.live hstill, hfin, hf]
      rfl
    have hq : endFinishes q data e = false := by
      unfold endFinishes
      rw [hto q hf]
      simp [hclose.attached]
    rw [exec_end, exec_end, hd, hq, if_pos rfl, if_neg Bool.false_ne_true, hto d (hfin.trans hf),
      hto q hf]
    exact hclose.after_finish hstill

theorem Twin.after_exec {d q : Endpoint Log} (h : Twin d q) {c : Call} (hc : c.Framable)
    (hok : CallOk q.msg c) : Twin (exec d c) (exec q c) := by
  cases c with
  | writeContinue => exact h.after_continue hok
  | writeHead statusCode reasonPhrase obj =>
    rw [exec_writeHead, exec_writeHead]
    exact h.after_writeHeadTo ⟨statusCode, reasonPhrase, obj⟩ hok
  | write chunk e =>
    obtain ⟨himplicit, hsends⟩ := hok
    rw [h.eq_mk] at hsends
    have htwin := h.after_implicitTo himplicit
    have hbody : bodySends (implicitTo d).msg chunk e = bodySends (implicitTo q).msg chunk e := by
      rw [htwin.msg]
      rfl
    rw [exec_write, exec_write, hbody]
    exact htwin.after_sendAll (framable_bodySends _ hc) hsends
  | «end» data e => exact h.after_end hc hok

/-- Every call of a sequence is made in a state in which it keeps to the direct path. -/
def CallsOk : Endpoint Log → List Call → Prop
  | _, [] => True
  | q, c :: calls => CallOk q.msg c ∧ CallsOk (exec q c) calls

instance decidableCallsOk : ∀ (q : Endpoint Log) (calls : List Call), Decidable (CallsOk q calls)
  | _, [] => inferInstanceAs (Decidable True)
  | q, c :: calls =>
    have := decidableCallsOk (exec q c) calls
    inferInstanceAs (Decidable (CallOk q.msg c ∧ CallsOk _ calls))

theorem Twin.run {d q : Endpoint Log} (h : Twin d q) {calls : List Call}
    (hcalls : ∀ c ∈ calls, c.Framable) (hok : CallsOk q calls) :
    Twin (calls.foldl exec d) (calls.foldl exec q) := by
  induction calls generalizing d q with
  | nil => exact h
  | cons c calls ih =>
    obtain ⟨hfirst, hrest⟩ := hok
    exact ih (h.after_exec (hcalls c List.mem_cons_self) hfirst)
      (fun c hc => hcalls c (List.mem_cons_of_mem _ hc)) hrest

/-- The bytes of a response that has the socket from the start. -/
def directBytes (m : Outgoing) (calls : List Call) : Bytes :=
  wireBytes (calls.foldl exec ⟨{ m with attached := true }, ⟨[]⟩⟩).sock.writes

/-- The bytes of a response that gets the socket after all calls. -/
def queuedBytes (m : Outgoing) (calls : List Call) : Bytes :=
  wireBytes (after assignSocket (calls.foldl exec ⟨{ m with attached := false }, ⟨[]⟩⟩)).sock.writes

/-- Queued and direct responses send the same bytes if no call of the sequence runs into one of
the things `_buffer` and `_send` do with the queue. -/
theorem queuedBytes_eq_directBytes {m : Outgoing} (h : Fresh m) {calls : List Call}
    (hcalls : ∀ c ∈ calls, c.Framable)
    (hok : CallsOk ⟨{ m with attached := false }, ⟨[]⟩⟩ calls) :
    queuedBytes m calls = directBytes m calls := by
  have hstart : Twin ⟨{ m with attached := true }, ⟨[]⟩⟩ ⟨{ m with attached := false }, ⟨[]⟩⟩ := by
    have htexts : Texts m.output := by
      rw [h.output]
      exact texts_nil
    have hwire : wireBytes [] = wireBytes m.output := by rw [h.output]
    have hlive := twin_of_live (m := { m with attached := false }) rfl htexts hwire h.finished
    have howner : ({ m with attached := true } : Outgoing) =
        { m with output := [], attached := true } := by rw [← h.output]
    rw [howner]
    exact hlive
  have hrun := hstart.run hcalls hok
  unfold queuedBytes directBytes after
  obtain ⟨r, hassign⟩ := assignSocket_log
    (calls.foldl exec ⟨{ m with attached := false }, ⟨[]⟩⟩)
  rw [hassign, hrun.wire]
  unfold assignTo
  dsimp only
  rw [hrun.unsent]
  rfl

/-- A string, a Buffer and `end`, after `writeContinue`. -/
theorem queuedBytes_eq_directBytes_mixed :
    CallsOk ⟨ServerResponse.new false true, ⟨[]⟩⟩ [.writeContinue, .write (.str (js "a")) none,
        .write (.buffer [0xff]) none, .end (some (.str [0xe9])) (some (encName .binary))] ∧
      queuedBytes (ServerResponse.new false true) [.writeContinue, .write (.str (js "a")) none,
          .write (.buffer [0xff]) none, .end (some (.str [0xe9])) (some (encName .binary))] =
        directBytes (ServerResponse.new false true) [.writeContinue, .write (.str (js "a")) none,
          .write (.buffer [0xff]) none, .end (some (.str [0xe9])) (some (encName .binary))] :=
  ⟨by decide +kernel, queuedBytes_eq_directBytes (fresh_new false true)
    (by simp [Call.Framable, Framable]; decide) (by decide +kernel)⟩

/-- `write('é', 'binary')` and then `write('é')`: in the queue both are binary. -/
theorem queuedBytes_ne_directBytes :
    ¬ ∀ m, Fresh m → ∀ calls : List Call, (∀ c ∈ calls, c.Framable) →
      queuedBytes m calls = directBytes m calls := by
  intro hall
  have heq := hall (ServerResponse.new false true) (fresh_new false true)
    [.write (.str [0xe9]) (some (encName .binary)), .write (.str [0xe9]) none]
    (by simp [Call.Framable, Framable]; decide)
  revert heq
  decide +kernel

end NodeJS.Http
