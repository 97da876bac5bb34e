import NodeJS.Http.Methods
import NodeJS.Lib.Reach

/-! A message that is written to and ended while its connection comes and goes. -/
namespace NodeJS.Http

/-! ### Whose message a connection has -/

/-- The field `connection` of every message and the field `_httpMessage` of every connection. -/
structure Links where
  connection : ℕ → Option ℕ
  httpMessage : ℕ → Option ℕ

inductive LinkAction
  | assignSocket (message socket : ℕ)
  | detachSocket (message socket : ℕ)

/-- The two functions that set the fields, where their assertions hold. -/
def Links.step (l : Links) : LinkAction → Option Links
  | .assignSocket message socket =>
    if l.httpMessage socket = none then
      some ⟨Function.update l.connection message (some socket),
        Function.update l.httpMessage socket (some message)⟩
    else none
  | .detachSocket message socket =>
    if l.httpMessage socket = some message then
      some ⟨Function.update l.connection message none,
        Function.update l.httpMessage socket none⟩
    else none

def Links.Owned (l : Links) : Prop :=
  ∀ message socket, l.connection message = some socket → l.httpMessage socket = some message

theorem Links.Owned.step {l l' : Links} {a : LinkAction} (h : l.Owned) (ha : l.step a = some l') :
    l'.Owned := by
  intro m c hc
  cases a with
  | assignSocket message socket =>
    dsimp only [Links.step] at ha
    split_ifs at ha with hfree
    obtain rfl := Option.some.inj ha
    dsimp only at hc ⊢
    by_cases hm : m = message
    · subst hm
      rw [Function.update_self] at hc
      obtain rfl := Option.some.inj hc
      rw [Function.update_self]
    · rw [Function.update_of_ne hm] at hc
      have howner := h m c hc
      have hne : c ≠ socket := by
        rintro rfl
        rw [hfree] at howner
        cases howner
      rw [Function.update_of_ne hne]
      exact howner
  | detachSocket message socket =>
    dsimp only [Links.step] at ha
    split_ifs at ha with howned
    obtain rfl := Option.some.inj ha
    dsimp only at hc ⊢
    by_cases hm : m = message
    · subst hm
      rw [Function.update_self] at hc
      cases hc
    · rw [Function.update_of_ne hm] at hc
      have howner := h m c hc
      have hne : c ≠ socket := by
        rintro rfl
        exact hm (Option.some.inj (howner.symm.trans howned))
      rw [Function.update_of_ne hne]
      exact howner

/-- A connection that is set has this message: that `this.connection._httpMessage` is another one
does not happen. -/
theorem Links.owned_of_reach {l : Links}
    (h : Lib.Reach Links.step (fun _ _ => True) ⟨fun _ => none, fun _ => none⟩ l) : l.Owned :=
  h.invariant (fun _ _ hc => by cases hc) fun _ _ _ hl _ ha => hl.step ha

/-! ### The life of a message -/

section
variable {σ : Type} [Connection σ]

/-- What can happen to a message. `socket` is anything that happens to its connection. -/
inductive Kind.Action (σ : Type)
  | setHeader (name : JSString) (value : Value)
  | removeHeader (name : JSString)
  | addTrailers (headers : List Line)
  | writeContinue
  | writeHead (statusCode : ℕ) (reasonPhrase : Option JSString) (obj : Option HeadersArg)
  | storeHeader (lines : List Line)
  | write (chunk : Chunk) (encoding : EncArg)
  | «end» (data : Option Chunk) (encoding : EncArg)
  | flush
  | assignSocket (sock : σ)
  | detachSocket
  | abort (sock : σ)
  | socket (sock : σ)
  | flags (last shouldKeepAlive expectContinue : Bool)

/-- One event. The constructor of a request calls `_storeHeader` for headers given as an array or
with an `Expect` among them; the listeners of a connection set the flags. -/
def Kind.step (kind : Kind) (s : Endpoint σ) : Action σ → Option (Endpoint σ)
  | .setHeader name value => some (after (setHeader name value) s)
  | .removeHeader name => some (after (removeHeader name) s)
  | .addTrailers headers => some (after (addTrailers headers) s)
  | .writeContinue =>
    match kind with
    | .response => some (after writeContinue s)
    | .request _ => none
  | .writeHead statusCode reasonPhrase obj =>
    match kind with
    | .response => some (after (writeHead statusCode reasonPhrase obj) s)
    | .request _ => none
  | .storeHeader lines =>
    match kind with
    | .response => none
    | .request firstLine =>
      if s.msg.header.isNone then some (after (sendHeader firstLine lines) s) else none
  | .write chunk encoding => some (after (kind.write chunk encoding) s)
  | .end data encoding => some (after (kind.end data encoding) s)
  | .flush => some (after flush s)
  | .assignSocket sock => some (after assignSocket { s with sock := sock })
  | .detachSocket => some { s with msg := detachSocket s.msg }
  | .abort sock =>
    match kind with
    | .response => none
    | .request _ =>
      if s.msg.attached then some ⟨detachSocket s.msg, sock⟩ else some s
  | .socket sock => some { s with sock := sock }
  | .flags last shouldKeepAlive expectContinue =>
    some { s with msg := { s.msg with
      last := last
      shouldKeepAlive := shouldKeepAlive
      expectContinue := expectContinue } }

/-- A message as its constructor makes it. -/
inductive Kind.Start : Kind → Outgoing → Prop
  | response (head http11 : Bool) : Start .response (ServerResponse.new head http11)
  | request (method path : JSString) :
    Start (.request (method ++ js " " ++ path ++ js " HTTP/1.1" ++ CRLF))
      (ClientRequest.start method)

end

/-! ### When `end` finds no connection -/

/-- Whether an argument of `end` is one that nothing is sent for. -/
def noData (m : Outgoing) (data : Option Chunk) : Bool :=
  !m.hasBody || data.all (·.length = 0)

/-- An unfinished message without a connection that has sent its header and everything written so
far, to which `end` adds nothing. -/
structure Cut (m : Outgoing) (data : Option Chunk) : Prop where
  finished : m.finished = false
  attached : m.attached = false
  header : m.header.isSome = true
  headerSent : m.headerSent = true
  output : m.output = []
  plain : m.chunkedEncoding = false
  data : noData m data = true

section
variable {σ : Type}

/-- A method that does not miss its connection. -/
def Sound {α : Type} (x : M σ α) : Prop := ∀ s s', x s ≠ .error .noConnection s'

theorem bind_eq_error {α β : Type} {x : M σ α} {f : α → M σ β} {s s'' : Endpoint σ} {e : Exc}
    (h : (x >>= f) s = .error e s'') :
    x s = .error e s'' ∨ ∃ a s', x s = .ok a s' ∧ f a s' = .error e s'' := by
  simp only [bind, EStateM.bind] at h
  cases hrun : x s with
  | ok a s' =>
    rw [hrun] at h
    exact Or.inr ⟨a, s', rfl, h⟩
  | error e' s' =>
    rw [hrun] at h
    cases h
    exact Or.inl rfl

theorem Sound.bind {α β : Type} {x : M σ α} {f : α → M σ β} (hx : Sound x)
    (hf : ∀ a, Sound (f a)) : Sound (x >>= f) := by
  intro s s'' h
  rcases bind_eq_error h with h | ⟨a, s', _, h⟩
  · exact hx s s'' h
  · exact hf a s' s'' h

theorem Sound.of_ok {α : Type} {x : M σ α} (h : ∀ s, ∃ a s', x s = .ok a s') : Sound x := by
  intro s s'' he
  obtain ⟨a, s', hrun⟩ := h s
  rw [hrun] at he
  cases he

theorem Sound.pure {α : Type} (a : α) : Sound (Pure.pure a : M σ α) :=
  .of_ok fun s => ⟨a, s, rfl⟩

theorem Sound.getMsg : Sound (getMsg : M σ Outgoing) := .of_ok fun s => ⟨s.msg, s, rfl⟩

theorem Sound.modifyMsg (f : Outgoing → Outgoing) : Sound (modifyMsg f : M σ Unit) :=
  .of_ok fun s => ⟨(), { s with msg := f s.msg }, rfl⟩

theorem Sound.throw {α : Type} {e : Exc} (he : e ≠ .noConnection) :
    Sound (MonadExcept.throw e : M σ α) := by
  intro s s' h
  injection h with h
  exact he h

theorem Sound.map {α β : Type} {x : M σ α} (hx : Sound x) (f : α → β) : Sound (f <$> x) := by
  intro s s' h
  simp only [Functor.map, EStateM.map] at h
  cases hrun : x s with
  | ok a s₁ =>
    rw [hrun] at h
    cases h
  | error e s₁ =>
    rw [hrun] at h
    injection h with he
    exact hx s s₁ (he ▸ hrun)

theorem Sound.renderHeaders : Sound (renderHeaders : M σ Headers) := by
  refine Sound.getMsg.bind fun m => ?_
  split_ifs
  · exact (Sound.throw (e := .renderAfterSent) nofun).bind fun _ => .pure _
  · exact .pure _

theorem bind_run {α β : Type} {x : M σ α} {f : α → M σ β} {s s' : Endpoint σ} {a : α}
    (h : x s = .ok a s') : (x >>= f) s = f a s' := by
  simp only [bind, EStateM.bind, h]

theorem renderHeaders_ok {s : Endpoint σ} (hnone : s.msg.header = none) :
    renderHeaders s = .ok ((s.msg.headers.getD []).map fun e => e.2) s := by
  simp [renderHeaders, getMsg, bind, EStateM.bind, hnone, pure, EStateM.pure]

variable [Connection σ]

theorem Sound.writable : Sound (writable : M σ Bool) :=
  .of_ok fun s => ⟨Connection.writable s.sock, s, rfl⟩

theorem Sound.connectionWrite (data : Chunk) (encoding : EncArg) :
    Sound (connectionWrite data encoding : M σ Bool) := by
  intro s s' h
  unfold Http.connectionWrite at h
  generalize Connection.write s.sock data encoding = r at h
  obtain ⟨result, sock⟩ := r
  cases result with
  | ok r => cases h
  | error e => cases h

theorem Sound.writeThrough (data : Chunk) (encoding : EncArg) (output : List (Chunk × EncArg)) :
    Sound (writeThrough data encoding output : M σ Bool) := by
  induction output with
  | nil => exact .connectionWrite _ _
  | cons w output ih =>
    refine Sound.writable.bind fun r => ?_
    split_ifs
    · exact (Sound.modifyMsg _).bind fun _ => .pure _
    · exact (Sound.modifyMsg _).bind fun _ => (Sound.connectionWrite _ _).bind fun _ => ih

theorem Sound.writeRaw (data : Chunk) (encoding : EncArg) :
    Sound (writeRaw data encoding : M σ Bool) := by
  refine Sound.getMsg.bind fun m => Sound.writable.bind fun r => ?_
  split_ifs
  · exact .writeThrough _ _ _
  · exact (Sound.modifyMsg _).bind fun _ => .pure _

theorem Sound.send (data : Chunk) (encoding : EncArg) :
    Sound (send data encoding : M σ Bool) := by
  refine Sound.getMsg.bind fun m => ?_
  split_ifs
  · exact .writeRaw _ _
  · cases data with
    | str t => exact (Sound.modifyMsg _).bind fun _ => .writeRaw _ _
    | buffer b => exact (Sound.modifyMsg _).bind fun _ => .writeRaw _ _

theorem Sound.sendHeader (firstLine : JSString) (lines : List Line) :
    Sound (sendHeader firstLine lines : M σ Unit) := by
  refine Sound.getMsg.bind fun m => ?_
  dsimp only
  refine (Sound.modifyMsg _).bind fun _ => ?_
  split_ifs
  · exact (Sound.send _ _).bind fun _ => .pure _
  · exact .pure _

theorem Sound.writeHead (statusCode : ℕ) (reasonPhrase : Option JSString)
    (obj : Option HeadersArg) : Sound (writeHead statusCode reasonPhrase obj : M σ Unit) := by
  refine (Sound.modifyMsg _).bind fun _ => Sound.getMsg.bind fun m => ?_
  have hstore : ∀ headers : Headers, Sound (do
      Http.modifyMsg fun m => { m with
        hasBody := m.hasBody && !bodiless statusCode
        shouldKeepAlive := m.shouldKeepAlive && !(m.expectContinue && !m.sent100) }
      Http.sendHeader (statusLine statusCode reasonPhrase) headers.lines : M σ Unit) :=
    fun headers => (Sound.modifyMsg _).bind fun _ => .sendHeader _ _
  cases obj with
  | none =>
    dsimp only
    split_ifs
    · exact Sound.renderHeaders.bind hstore
    · exact (Sound.pure _).bind hstore
  | some obj =>
    dsimp only
    split_ifs
    · exact (Sound.renderHeaders.map _).bind hstore
    · exact (Sound.pure _).bind hstore

theorem Sound.implicitHeader (kind : Kind) : Sound (kind.implicitHeader : M σ Unit) := by
  cases kind with
  | response =>
    refine Sound.getMsg.bind fun m => ?_
    split_ifs
    · exact .writeHead _ _ _
    · exact .pure _
  | request firstLine =>
    refine Sound.getMsg.bind fun m => ?_
    split_ifs
    · exact Sound.renderHeaders.bind fun headers => .sendHeader _ _
    · exact .pure _

theorem Sound.body (chunk : Chunk) (encoding : EncArg) :
    Sound (Http.write chunk encoding : M σ Bool) := by
  refine (Sound.implicitHeader .response).bind fun _ => Sound.getMsg.bind fun m => ?_
  split_ifs
  · exact .pure _
  · exact .pure _
  · cases chunk with
    | str s => exact .send _ _
    | buffer b =>
      exact (Sound.send _ _).bind fun _ => (Sound.send _ _).bind fun _ => .send _ _
  · exact .send _ _

theorem Sound.write (kind : Kind) (chunk : Chunk) (encoding : EncArg) :
    Sound (kind.write chunk encoding : M σ Bool) :=
  (Sound.implicitHeader kind).bind fun _ => .body _ _

theorem Sound.endSend : Sound (endSend : M σ Bool) := by
  refine Sound.getMsg.bind fun m => ?_
  split_ifs
  · exact .send _ _
  · exact .send _ _

theorem Sound.endBody (data : Option Chunk) (encoding : EncArg) :
    Sound (endBody data encoding : M σ Bool) := by
  refine Sound.getMsg.bind fun m => ?_
  cases data with
  | none => exact .endSend
  | some chunk =>
    cases chunk with
    | buffer b => exact (Sound.body _ _).bind fun _ => .endSend
    | str t =>
      refine Sound.writable.bind fun r => ?_
      split_ifs
      · exact (Sound.connectionWrite _ _).bind fun _ => (Sound.modifyMsg _).bind fun _ => .pure _
      · exact (Sound.body _ _).bind fun _ => .endSend
      · exact .endSend

/-! ### Without a connection -/

/-- The header is there, and it has a text. -/
def Titled (m : Outgoing) : Prop := ∃ text, m.header = some text ∧ text ≠ []

theorem Titled.headerText {m : Outgoing} (h : Titled m) : m.headerText ≠ [] := by
  obtain ⟨text, htext, hne⟩ := h
  unfold Outgoing.headerText
  rw [htext]
  exact hne

/-- The message after something was sent that went to its queue. -/
def queued (s : Endpoint σ) (output : List (Chunk × EncArg)) : Endpoint σ :=
  { s with msg := { s.msg with headerSent := true, output := output } }

theorem buffer_eq_nil {output : List (Chunk × EncArg)} {data : Chunk} (encoding : EncArg) :
    buffer output data encoding = [] ↔ output = [] ∧ data.length = 0 := by
  constructor
  · intro h
    by_contra hne
    refine buffer_ne_nil encoding ?_ h
    rwa [not_and_or] at hne
  · rintro ⟨rfl, hlen⟩
    unfold buffer
    rw [if_pos hlen]

theorem send_detached {s : Endpoint σ} (ha : s.msg.attached = false) (ht : Titled s.msg)
    (data : Chunk) (encoding : EncArg) :
    ∃ output, send data encoding s = .ok false (queued s output) ∧
      (output = [] ↔ s.msg.headerSent = true ∧ s.msg.output = [] ∧ data.length = 0) := by
  have hguard : (s.msg.attached && Connection.writable s.sock) = false := by rw [ha]; rfl
  cases hsent : s.msg.headerSent with
  | true =>
    have hrun : send data encoding s = writeRaw data encoding s := by
      simp [send, getMsg, bind, EStateM.bind, hsent]
    refine ⟨buffer s.msg.output data encoding, ?_, ?_⟩
    · rw [hrun, writeRaw_blocked hguard]
      unfold queued
      rw [← hsent]
    · rw [buffer_eq_nil]
      simp
  | false =>
    have hne := ht.headerText
    cases data with
    | str t =>
      have hrun : send (.str t) encoding s = writeRaw (.str (s.msg.headerText ++ t)) encoding
          { s with msg := { s.msg with headerSent := true } } := by
        simp [send, getMsg, modifyMsg, bind, EStateM.bind, hsent]
      refine ⟨buffer s.msg.output (.str (s.msg.headerText ++ t)) encoding, ?_, ?_⟩
      · have hraw := writeRaw_blocked
          (s := { s with msg := { s.msg with headerSent := true } }) hguard
          (.str (s.msg.headerText ++ t)) encoding
        rw [hrun, hraw]
        rfl
      · rw [buffer_eq_nil]
        simp [Chunk.length, hne]
    | buffer b =>
      have hrun : send (.buffer b) encoding s = writeRaw (.buffer b) encoding
          { s with msg := { s.msg with
              output := (.str s.msg.headerText, some (encName .ascii)) :: s.msg.output
              headerSent := true } } := by
        simp [send, getMsg, modifyMsg, bind, EStateM.bind, hsent, Outgoing.headerText]
      refine ⟨buffer ((.str s.msg.headerText, some (encName .ascii)) :: s.msg.output) (.buffer b)
        encoding, ?_, ?_⟩
      · have hraw := writeRaw_blocked
          (s := { s with msg := { s.msg with
            output := (.str s.msg.headerText, some (encName .ascii)) :: s.msg.output
            headerSent := true } }) hguard (.buffer b) encoding
        rw [hrun, hraw]
        rfl
      · rw [buffer_eq_nil]
        simp

theorem endSend_detached {s : Endpoint σ} (ha : s.msg.attached = false) (ht : Titled s.msg) :
    ∃ output, endSend s = .ok false (queued s output) ∧
      (output = [] ↔
        s.msg.headerSent = true ∧ s.msg.output = [] ∧ s.msg.chunkedEncoding = false) := by
  unfold endSend
  rw [bind_run (show getMsg s = .ok s.msg s from rfl)]
  cases hc : s.msg.chunkedEncoding with
  | true =>
    obtain ⟨output, hrun, hiff⟩ :=
      send_detached ha ht (.str (js "0\r\n" ++ s.msg.trailer ++ CRLF)) none
    refine ⟨output, hrun, hiff.trans ?_⟩
    simp [Chunk.length, CRLF, js]
  | false =>
    obtain ⟨output, hrun, hiff⟩ := send_detached ha ht (.str []) none
    refine ⟨output, hrun, hiff.trans ?_⟩
    simp [Chunk.length]

theorem implicitHeader_titled {s : Endpoint σ} (ht : Titled s.msg) (kind : Kind) :
    kind.implicitHeader s = .ok () s := by
  obtain ⟨text, htext, _⟩ := ht
  have hnone : s.msg.header.isNone = false := by rw [htext]; rfl
  cases kind with
  | response => simp [Kind.implicitHeader, Http.implicitHeader, getMsg, bind, EStateM.bind, hnone,
      pure, EStateM.pure]
  | request firstLine => simp [Kind.implicitHeader, getMsg, bind, EStateM.bind, hnone, pure,
      EStateM.pure]

/-- A chunk of the body is queued. -/
theorem write_detached {s : Endpoint σ} (ha : s.msg.attached = false) (ht : Titled s.msg)
    (hb : s.msg.hasBody = true) {chunk : Chunk} (hlen : chunk.length ≠ 0) (encoding : EncArg) :
    ∃ r output, Http.write chunk encoding s = .ok r (queued s output) ∧ output ≠ [] := by
  have himplicit : Http.implicitHeader s = .ok () s := implicitHeader_titled ht .response
  unfold Http.write
  rw [bind_run himplicit, bind_run (show getMsg s = .ok s.msg s from rfl), hb,
    if_neg (by simp), if_neg hlen]
  cases hc : s.msg.chunkedEncoding with
  | false =>
    obtain ⟨output, hrun, hiff⟩ := send_detached ha ht chunk encoding
    exact ⟨false, output, hrun, fun ho => hlen (hiff.mp ho).2.2⟩
  | true =>
    rw [if_pos rfl]
    cases chunk with
    | str t =>
      obtain ⟨output, hrun, hiff⟩ := send_detached ha ht
        (.str (hex (byteLength encoding.encoding t) ++ CRLF ++ t ++ CRLF)) encoding
      refine ⟨false, output, hrun, fun ho => ?_⟩
      have := (hiff.mp ho).2.2
      simp [Chunk.length, CRLF, js] at this
    | buffer b =>
      obtain ⟨o₁, h₁, _⟩ := send_detached ha ht (.str (hex b.length ++ CRLF)) none
      obtain ⟨o₂, h₂, _⟩ := send_detached (s := queued s o₁) ha ht (.buffer b) none
      obtain ⟨o₃, h₃, hiff⟩ := send_detached (s := queued (queued s o₁) o₂) ha ht (.str CRLF) none
      refine ⟨false, o₃, ?_, fun ho => ?_⟩
      · dsimp only
        rw [bind_run h₁, bind_run h₂, h₃]
        rfl
      · have := (hiff.mp ho).2.2
        simp [Chunk.length, CRLF, js] at this

/-- What `end` sends is queued, if it is anything. -/
theorem endBody_detached {s : Endpoint σ} (ha : s.msg.attached = false) (ht : Titled s.msg)
    {data : Option Chunk} (hb : data.isSome = true → s.msg.hasBody = true) (encoding : EncArg) :
    ∃ r output, endBody data encoding s = .ok r (queued s output) ∧
      (output = [] ↔ s.msg.headerSent = true ∧ s.msg.output = [] ∧
        s.msg.chunkedEncoding = false ∧ data.all (·.length = 0) = true) := by
  obtain ⟨o, hclose, hiff⟩ := endSend_detached ha ht
  have hplain : data.all (·.length = 0) = true →
      (o = [] ↔ s.msg.headerSent = true ∧ s.msg.output = [] ∧
        s.msg.chunkedEncoding = false ∧ data.all (·.length = 0) = true) := by
    intro hempty
    rw [hiff]
    simp [hempty]
  -- data is written before the message is closed
  have hwrite : ∀ chunk, data = some chunk → chunk.length ≠ 0 → ∃ r output,
      (Http.write chunk encoding >>= fun _ => endSend) s = .ok r (queued s output) ∧
      (output = [] ↔ s.msg.headerSent = true ∧ s.msg.output = [] ∧
        s.msg.chunkedEncoding = false ∧ data.all (·.length = 0) = true) := by
    rintro chunk rfl hlen
    obtain ⟨r, o₁, hrun, hne⟩ := write_detached ha ht (hb rfl) hlen encoding
    obtain ⟨o₂, hclose₂, hiff₂⟩ := endSend_detached (s := queued s o₁) ha ht
    refine ⟨false, o₂, ?_, ?_⟩
    · rw [bind_run hrun, hclose₂]
      rfl
    · rw [hiff₂]
      simp [queued, hne, hlen]
  unfold endBody
  rw [bind_run (show getMsg s = .ok s.msg s from rfl)]
  cases data with
  | none => exact ⟨false, o, hclose, hplain rfl⟩
  | some chunk =>
    cases chunk with
    | buffer b =>
      by_cases hlen : (Chunk.buffer b).length = 0
      · have himplicit : Http.implicitHeader s = .ok () s := implicitHeader_titled ht .response
        have hnone : Http.write (.buffer b) encoding s = .ok false s := by
          unfold Http.write
          rw [bind_run himplicit, bind_run (show getMsg s = .ok s.msg s from rfl), hb rfl,
            if_neg (by simp), if_pos hlen]
          rfl
        refine ⟨false, o, ?_, hplain (by simpa using hlen)⟩
        dsimp only
        rw [bind_run hnone, hclose]
      · exact hwrite _ rfl hlen
    | str t =>
      dsimp only
      rw [bind_run (show writable s = .ok (Connection.writable s.sock) s from rfl),
        if_neg (by simp [hotPath, ha])]
      by_cases hlen : t.length > 0
      · rw [if_pos hlen]
        exact hwrite _ rfl hlen.ne'
      · rw [if_neg hlen]
        exact ⟨false, o, hclose, hplain (by simpa [Chunk.length] using hlen)⟩

/-- `end` on a message that has a header but no connection. -/
theorem end_detached {s : Endpoint σ} (ha : s.msg.attached = false) (ht : Titled s.msg)
    (hf : s.msg.finished = false) (data : Option Chunk) (encoding : EncArg) :
    (∃ s', Http.end data encoding s = .error .noConnection s') ↔
      s.msg.headerSent = true ∧ s.msg.output = [] ∧ s.msg.chunkedEncoding = false ∧
        noData s.msg data = true := by
  have himplicit : Http.implicitHeader s = .ok () s := implicitHeader_titled ht .response
  have hb : (if s.msg.hasBody then data else none).isSome = true → s.msg.hasBody = true := by
    cases s.msg.hasBody with
    | true => exact fun _ => rfl
    | false => exact fun h => h
  have hdata : (if s.msg.hasBody then data else none).all (·.length = 0) = noData s.msg data := by
    unfold noData
    cases s.msg.hasBody with
    | true => rfl
    | false => rfl
  obtain ⟨r, output, hrun, hiff⟩ := endBody_detached ha ht hb encoding
  rw [hdata] at hiff
  let fin : Endpoint σ :=
    { queued s output with msg := { (queued s output).msg with finished := true } }
  have hatt : fin.msg.attached = false := ha
  have hout : fin.msg.output = output := rfl
  have hend : Http.end data encoding s =
      if output.isEmpty then .error .noConnection fin else .ok (r, false) fin := by
    unfold Http.end
    rw [bind_run (show getMsg s = .ok s.msg s from rfl), hf, if_neg Bool.false_ne_true,
      bind_run himplicit, bind_run (show getMsg s = .ok s.msg s from rfl), bind_run hrun,
      bind_run (show modifyMsg (fun m => { m with finished := true }) (queued s output) =
        .ok () fin from rfl),
      bind_run (show getMsg fin = .ok fin.msg fin from rfl), hatt, hout]
    cases output with
    | nil => rfl
    | cons w output => rfl
  rw [hend, ← hiff]
  cases output with
  | nil => simp
  | cons w output => simp

/-- A message with a header of which something is still to be sent. -/
structure Pending (s : Endpoint σ) (finished : Bool) : Prop where
  attached : s.msg.attached = false
  titled : Titled s.msg
  finished : s.msg.finished = finished
  pending : ¬ (s.msg.headerSent = true ∧ s.msg.output = [])

theorem sendHeader_detached {s : Endpoint σ} (ha : s.msg.attached = false) (firstLine : JSString)
    (lines : List Line) :
    ∃ s', sendHeader firstLine lines s = .ok () s' ∧ Pending s' s.msg.finished := by
  have hrun : sendHeader firstLine lines s =
      (if (storeHeader s.msg firstLine lines).2 = true then
        (send (.str []) none >>= fun _ => pure ()) else pure ())
        { s with msg := (storeHeader s.msg firstLine lines).1 } := rfl
  obtain ⟨last, chunkedEncoding, shouldKeepAlive, hmsg⟩ := storeLines_msg s.msg lines
  have hstored : Pending ({ s with msg := (storeHeader s.msg firstLine lines).1 } : Endpoint σ)
      s.msg.finished := by
    refine ⟨?_, ⟨render firstLine (storeLines s.msg lines).lines, rfl, ?_⟩, ?_, ?_⟩
    · show (storeLines s.msg lines).msg.attached = false
      rw [hmsg]
      exact ha
    · simp [render, CRLF, js]
    · show (storeLines s.msg lines).msg.finished = s.msg.finished
      rw [hmsg]
    · rintro ⟨hsent, -⟩
      cases hsent
  rw [hrun]
  split_ifs
  · obtain ⟨output, hsend, hiff⟩ := send_detached hstored.attached hstored.titled (.str []) none
    refine ⟨queued { s with msg := (storeHeader s.msg firstLine lines).1 } output, ?_,
      hstored.attached, hstored.titled, hstored.finished, ?_⟩
    · rw [bind_run hsend]
      rfl
    · rintro ⟨-, hout⟩
      have hsent := (hiff.mp hout).1
      cases hsent
  · exact ⟨_, rfl, hstored⟩

theorem writeHead_detached {s : Endpoint σ} (ha : s.msg.attached = false)
    (hnone : s.msg.header = none) (statusCode : ℕ) :
    ∃ s', writeHead statusCode none none s = .ok () s' ∧ Pending s' s.msg.finished := by
  let s₁ : Endpoint σ := { s with msg := { s.msg with statusCode := statusCode } }
  let s₂ : Endpoint σ := { s with msg := { s.msg with
    statusCode := statusCode
    hasBody := s.msg.hasBody && !bodiless statusCode
    shouldKeepAlive := s.msg.shouldKeepAlive && !(s.msg.expectContinue && !s.msg.sent100) } }
  have hheaders : ∃ headers : Headers, writeHead statusCode none none s =
      sendHeader (statusLine statusCode none) headers.lines s₂ := by
    unfold writeHead
    rw [bind_run (show modifyMsg (fun m => { m with statusCode := statusCode }) s = .ok () s₁
      from rfl), bind_run (show getMsg s₁ = .ok s₁.msg s₁ from rfl)]
    dsimp only
    cases s₁.msg.headers.isSome with
    | true => exact ⟨_, bind_run (renderHeaders_ok (s := s₁) hnone)⟩
    | false => exact ⟨[], rfl⟩
  obtain ⟨headers, hrun⟩ := hheaders
  rw [hrun]
  exact sendHeader_detached (s := s₂) ha _ _

theorem implicitHeader_detached {s : Endpoint σ} (ha : s.msg.attached = false)
    (hnone : s.msg.header = none) (kind : Kind) :
    ∃ s', kind.implicitHeader s = .ok () s' ∧ Pending s' s.msg.finished := by
  have hisNone : s.msg.header.isNone = true := by rw [hnone]; rfl
  cases kind with
  | response =>
    unfold Kind.implicitHeader Http.implicitHeader
    dsimp only
    rw [bind_run (show getMsg s = .ok s.msg s from rfl), hisNone]
    exact writeHead_detached ha hnone _
  | request firstLine =>
    unfold Kind.implicitHeader
    dsimp only
    rw [bind_run (show getMsg s = .ok s.msg s from rfl), hisNone, if_pos rfl,
      bind_run (renderHeaders_ok hnone)]
    exact sendHeader_detached ha firstLine _

/-! ### With a connection -/

theorem attached_stable (b : Bool) : Stable (fun s : Endpoint σ => s.msg.attached = b) :=
  Loose.stable ⟨fun _ _ _ hs => hs, fun _ _ hs hm => hm.trans hs⟩

theorem attached_implicitHeader (b : Bool) (kind : Kind) :
    Preserves (fun s : Endpoint σ => s.msg.attached = b) kind.implicitHeader := by
  cases kind with
  | response => exact (attached_stable b).implicitHeader
  | request firstLine =>
    refine Preserves.getMsg.bind fun m => ?_
    split_ifs
    · exact (attached_stable b).renderHeaders.bind fun headers =>
        (attached_stable b).sendHeader _ _
    · exact Preserves.pure _

theorem end_attached {s : Endpoint σ} (ha : s.msg.attached = true) (data : Option Chunk)
    (encoding : EncArg) (s' : Endpoint σ) :
    Http.end data encoding s ≠ .error .noConnection s' := by
  have hstable := attached_stable (σ := σ) true
  intro h
  unfold Http.end at h
  rw [bind_run (show getMsg s = .ok s.msg s from rfl)] at h
  split_ifs at h
  · cases h
  · rcases bind_eq_error h with h | ⟨_, s₁, h₁, h⟩
    · exact Sound.implicitHeader .response s s' h
    · have ha₁ : s₁.msg.attached = true := hstable.implicitHeader.of_ok ha h₁
      rw [bind_run (show getMsg s₁ = .ok s₁.msg s₁ from rfl)] at h
      rcases bind_eq_error h with h | ⟨ret, s₂, h₂, h⟩
      · exact Sound.endBody _ _ s₁ s' h
      · have ha₂ : s₂.msg.attached = true := (hstable.endBody _ _).of_ok ha₁ h₂
        let fin : Endpoint σ := { s₂ with msg := { s₂.msg with finished := true } }
        have hfin : fin.msg.attached = true := ha₂
        rw [bind_run (show modifyMsg (fun m => { m with finished := true }) s₂ = .ok () fin
          from rfl), bind_run (show getMsg fin = .ok fin.msg fin from rfl), hfin] at h
        cases hout : fin.msg.output.isEmpty with
        | true =>
          rw [hout] at h
          cases h
        | false =>
          rw [hout] at h
          cases h

/-- Exactly when `end` finds its connection missing. -/
theorem end_error_iff (kind : Kind) {s : Endpoint σ} (ht : s.msg.header ≠ some [])
    (data : Option Chunk) (encoding : EncArg) :
    (∃ s', kind.end data encoding s = .error .noConnection s') ↔ Cut s.msg data := by
  unfold Kind.end
  rw [bind_run (show getMsg s = .ok s.msg s from rfl)]
  cases hf : s.msg.finished with
  | true =>
    constructor
    · rintro ⟨s', h⟩
      cases h
    · intro h
      cases h.finished.symm.trans hf
  | false =>
    rw [if_neg Bool.false_ne_true]
    cases ha : s.msg.attached with
    | true =>
      constructor
      · rintro ⟨s', h⟩
        rcases bind_eq_error h with h | ⟨_, s₁, h₁, h⟩
        · exact absurd h (Sound.implicitHeader kind s s')
        · have ha₁ := (attached_implicitHeader true kind).of_ok ha h₁
          exact absurd h (end_attached ha₁ data encoding s')
      · intro h
        cases h.attached.symm.trans ha
    | false =>
      cases hh : s.msg.header with
      | none =>
        obtain ⟨s₁, h₁, hs₁⟩ := implicitHeader_detached ha hh kind
        rw [bind_run h₁, end_detached hs₁.attached hs₁.titled (hs₁.finished.trans hf)]
        constructor
        · rintro ⟨hsent, hout, -⟩
          exact absurd ⟨hsent, hout⟩ hs₁.pending
        · intro h
          have := h.header
          rw [hh] at this
          cases this
      | some text =>
        have htitled : Titled s.msg := ⟨text, hh, fun hnil => ht (hnil ▸ hh)⟩
        rw [bind_run (implicitHeader_titled htitled kind), end_detached ha htitled hf]
        constructor
        · rintro ⟨hsent, hout, hplain, hdata⟩
          exact ⟨hf, ha, by rw [hh]; rfl, hsent, hout, hplain, hdata⟩
        · intro h
          exact ⟨h.headerSent, h.output, h.plain, h.data⟩

/-! ### Runs -/

theorem through_titled : Through (fun s : Endpoint σ => s.msg.header ≠ some []) :=
  ⟨fun _ _ _ hs => hs, fun _ _ hs => hs⟩

theorem stable_titled : Stable (fun s : Endpoint σ => s.msg.header ≠ some []) where
  send data encoding := by
    refine Preserves.getMsg.bind fun m => ?_
    split_ifs
    · exact through_titled.writeRaw _ _
    · cases data with
      | str t => exact Preserves.bind (fun _ hs => hs) fun _ => through_titled.writeRaw _ _
      | buffer b => exact Preserves.bind (fun _ hs => hs) fun _ => through_titled.writeRaw _ _
  writeRaw data encoding _ := through_titled.writeRaw data encoding
  hot _ _ _ hs _ _ := ⟨hs, hs⟩
  store s firstLine lines _ := by simp [storeHeader, render, CRLF, js]
  fields s m hs _ _ hheader _ := by
    show m.header ≠ some []
    rw [hheader]
    exact hs

theorem titled_implicitHeader (kind : Kind) :
    Preserves (fun s : Endpoint σ => s.msg.header ≠ some []) kind.implicitHeader := by
  cases kind with
  | response => exact stable_titled.implicitHeader
  | request firstLine =>
    refine Preserves.getMsg.bind fun m => ?_
    split_ifs
    · exact stable_titled.renderHeaders.bind fun headers => stable_titled.sendHeader _ _
    · exact Preserves.pure _

theorem titled_write (kind : Kind) (chunk : Chunk) (encoding : EncArg) :
    Preserves (fun s : Endpoint σ => s.msg.header ≠ some []) (kind.write chunk encoding) :=
  (titled_implicitHeader kind).bind fun _ => stable_titled.write chunk encoding

theorem titled_end (kind : Kind) (data : Option Chunk) (encoding : EncArg) :
    Preserves (fun s : Endpoint σ => s.msg.header ≠ some []) (kind.end data encoding) := by
  refine Preserves.getMsg.bind fun m => ?_
  split_ifs
  · exact Preserves.pure _
  · exact (titled_implicitHeader kind).bind fun _ => stable_titled.end _ _

theorem titled_assignSocket :
    Preserves (fun s : Endpoint σ => s.msg.header ≠ some []) assignSocket :=
  fun s hs => through_titled.flush { s with msg := { s.msg with attached := true } } hs

/-- No event leaves a header without a text. -/
theorem step_titled {kind : Kind} {s s' : Endpoint σ} {a : Kind.Action σ}
    (h : s.msg.header ≠ some []) (ha : kind.step s a = some s') : s'.msg.header ≠ some [] := by
  cases a with
  | setHeader name value => exact Option.some.inj ha ▸ stable_titled.setHeader name value s h
  | removeHeader name => exact Option.some.inj ha ▸ stable_titled.removeHeader name s h
  | addTrailers headers => exact Option.some.inj ha ▸ stable_titled.addTrailers headers s h
  | writeContinue =>
    cases kind with
    | response => exact Option.some.inj ha ▸ stable_titled.writeContinue s h
    | request firstLine => cases ha
  | writeHead statusCode reasonPhrase obj =>
    cases kind with
    | response =>
      exact Option.some.inj ha ▸ stable_titled.writeHead statusCode reasonPhrase obj s h
    | request firstLine => cases ha
  | storeHeader lines =>
    cases kind with
    | response => cases ha
    | request firstLine =>
      dsimp only [Kind.step] at ha
      split_ifs at ha
      exact Option.some.inj ha ▸ stable_titled.sendHeader firstLine lines s h
  | write chunk encoding =>
    exact Option.some.inj ha ▸ titled_write kind chunk encoding s h
  | «end» data encoding => exact Option.some.inj ha ▸ titled_end kind data encoding s h
  | flush => exact Option.some.inj ha ▸ through_titled.flush s h
  | assignSocket sock => exact Option.some.inj ha ▸ titled_assignSocket ⟨s.msg, sock⟩ h
  | detachSocket => exact Option.some.inj ha ▸ h
  | abort sock =>
    cases kind with
    | response => cases ha
    | request firstLine =>
      dsimp only [Kind.step] at ha
      split_ifs at ha
      · exact Option.some.inj ha ▸ h
      · exact Option.some.inj ha ▸ h
  | socket sock => exact Option.some.inj ha ▸ h
  | flags last shouldKeepAlive expectContinue => exact Option.some.inj ha ▸ h

/-- Whatever happened to a message before, `write` does not miss its connection, and `end` does
only if it has been cut off. -/
theorem cut_iff {kind : Kind} {m : Outgoing} (hm : kind.Start m) (sock : σ) {s : Endpoint σ}
    (h : Lib.Reach kind.step (fun _ _ => True) ⟨m, sock⟩ s) :
    (∀ chunk encoding s', kind.write chunk encoding s ≠ .error .noConnection s') ∧
    ∀ data encoding, (∃ s', kind.end data encoding s = .error .noConnection s') ↔
      Cut s.msg data := by
  have hstart : m.header ≠ some [] := by
    cases hm with
    | response head http11 => nofun
    | request method path => nofun
  have htitled : s.msg.header ≠ some [] :=
    h.invariant hstart fun _ _ _ hs _ ha => step_titled hs ha
  exact ⟨fun chunk encoding => Sound.write kind chunk encoding s,
    fun data encoding => end_error_iff kind htitled data encoding⟩

end

/-- The body of a request with a `Content-Length` is written before the request is aborted. -/
def aborted : List (Kind.Action Log) :=
  [.setHeader (js "Content-Length") (.one (js "1")), .assignSocket ⟨[]⟩,
    .write (.str (js "a")) none, .abort ⟨[]⟩]

theorem cut_iff_aborted :
    ∃ s, Lib.run (Kind.step (.request (js "POST" ++ js " " ++ js "/" ++ js " HTTP/1.1" ++ CRLF)))
        ⟨ClientRequest.start (js "POST"), (⟨[]⟩ : Log)⟩ aborted = some s ∧
      ∃ s', Kind.end (.request (js "POST" ++ js " " ++ js "/" ++ js " HTTP/1.1" ++ CRLF)) none none
        s = .error .noConnection s' := by
  have hrun : Lib.run (Kind.step (.request (js "POST" ++ js " " ++ js "/" ++ js " HTTP/1.1" ++ CRLF)))
      ⟨ClientRequest.start (js "POST"), (⟨[]⟩ : Log)⟩ aborted = some _ := rfl
  refine ⟨_, hrun, ?_⟩
  refine ((cut_iff (.request (js "POST") (js "/")) (⟨[]⟩ : Log)
    (Lib.reach_of_run hrun fun _ _ => trivial)).2 none none).mpr ?_
  exact ⟨rfl, rfl, rfl, rfl, rfl, rfl, rfl⟩

/-- `end` on an aborted request throws. -/
theorem end_misses_connection :
    ¬ ∀ (kind : Kind) (m : Outgoing) (s : Endpoint Log), kind.Start m →
      Lib.Reach kind.step (fun _ _ => True) ⟨m, ⟨[]⟩⟩ s →
      ∀ data encoding s', kind.end data encoding s ≠ .error .noConnection s' := by
  intro h
  have hrun : Lib.run (Kind.step (.request (js "POST" ++ js " " ++ js "/" ++ js " HTTP/1.1" ++ CRLF)))
      ⟨ClientRequest.start (js "POST"), (⟨[]⟩ : Log)⟩ aborted = some _ := rfl
  exact h _ _ _ (.request (js "POST") (js "/")) (Lib.reach_of_run hrun fun _ _ => trivial) none none _
    rfl

end NodeJS.Http
