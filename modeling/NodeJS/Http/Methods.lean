import NodeJS.Http.Wire

/-! What the methods of a message keep, over any connection: a property that every `_send` keeps
is kept by every method. -/
namespace NodeJS.Http
variable {σ : Type}

/-- A method keeps a property of the message and its connection, also when it throws. -/
def Preserves {α : Type} (P : Endpoint σ → Prop) (x : M σ α) : Prop := ∀ s, P s → P (after x s)

theorem after_bind {α β : Type} {x : M σ α} {f : α → M σ β} {P : Endpoint σ → Prop}
    {s : Endpoint σ} (hx : P (after x s)) (hf : ∀ a s', x s = .ok a s' → P (after (f a) s')) :
    P (after (x >>= f) s) := by
  unfold after at hx hf ⊢
  simp only [bind, EStateM.bind]
  cases hrun : x s with
  | ok a s' => exact hf a s' hrun
  | error e s' =>
    rw [hrun] at hx
    exact hx

theorem Preserves.bind {α β : Type} {x : M σ α} {f : α → M σ β} {P : Endpoint σ → Prop}
    (hx : Preserves P x) (hf : ∀ a, Preserves P (f a)) : Preserves P (x >>= f) := by
  intro s hs
  have hfirst := hx s hs
  apply after_bind hfirst
  intro a s' hrun
  unfold after at hfirst
  rw [hrun] at hfirst
  exact hf a s' hfirst

theorem Preserves.pure {α : Type} {P : Endpoint σ → Prop} (a : α) :
    Preserves P (Pure.pure a : M σ α) := fun _ hs => hs

theorem Preserves.throw {α : Type} {P : Endpoint σ → Prop} (e : Exc) :
    Preserves P (MonadExcept.throw e : M σ α) := fun _ hs => hs

theorem Preserves.getMsg {P : Endpoint σ → Prop} : Preserves P (getMsg : M σ Outgoing) :=
  fun _ hs => hs

theorem Preserves.map {α β : Type} {x : M σ α} {P : Endpoint σ → Prop} (hx : Preserves P x)
    (f : α → β) : Preserves P (f <$> x) := by
  intro s hs
  have hfirst := hx s hs
  unfold after at hfirst ⊢
  simp only [Functor.map, EStateM.map]
  cases hrun : x s with
  | ok a s' =>
    rw [hrun] at hfirst
    exact hfirst
  | error e s' =>
    rw [hrun] at hfirst
    exact hfirst

theorem bind_eq_ok {α β : Type} {x : M σ α} {f : α → M σ β} {s s'' : Endpoint σ} {b : β}
    (h : (x >>= f) s = .ok b s'') : ∃ a s', x s = .ok a s' ∧ f a s' = .ok b s'' := by
  simp only [bind, EStateM.bind] at h
  cases hrun : x s with
  | ok a s' =>
    rw [hrun] at h
    exact ⟨a, s', rfl, h⟩
  | error e s' =>
    rw [hrun] at h
    cases h

theorem Preserves.of_ok {α : Type} {P : Endpoint σ → Prop} {x : M σ α} (h : Preserves P x)
    {s s' : Endpoint σ} {a : α} (hs : P s) (hrun : x s = .ok a s') : P s' := by
  have hafter := h s hs
  unfold after at hafter
  rw [hrun] at hafter
  exact hafter

variable [Connection σ]

/-- A property of a message and its connection that `_send` and the bookkeeping around it keep. -/
structure Stable (P : Endpoint σ → Prop) : Prop where
  send : ∀ data encoding, Preserves P (send data encoding)
  writeRaw : ∀ data encoding, data.length ≠ 0 → Preserves P (writeRaw data encoding)
  hot : ∀ s data encoding, P s → s.msg.attached = true → Connection.writable s.sock = true →
    P { s with sock := (Connection.write s.sock data encoding).2 } ∧
      P ⟨{ s.msg with headerSent := true }, (Connection.write s.sock data encoding).2⟩
  store : ∀ s firstLine lines, P s → P { s with msg := (storeHeader s.msg firstLine lines).1 }
  fields : ∀ s m, P s → m.output = s.msg.output → m.attached = s.msg.attached →
    m.header = s.msg.header → m.headerSent = s.msg.headerSent → P { s with msg := m }

namespace Stable
variable {P : Endpoint σ → Prop}

theorem sendHeader (h : Stable P) (firstLine : JSString) (lines : List Line) :
    Preserves P (sendHeader firstLine lines) := by
  intro s hs
  have hstored := h.store s firstLine lines hs
  have hrun : Http.sendHeader firstLine lines s =
      (if (storeHeader s.msg firstLine lines).2 = true then
        (Http.send (.str []) none >>= fun _ => pure ()) else pure ())
        { s with msg := (storeHeader s.msg firstLine lines).1 } := rfl
  unfold after
  rw [hrun]
  split_ifs
  · exact (h.send (.str []) none).bind (fun _ => Preserves.pure ()) _ hstored
  · exact hstored

theorem modifyMsg (h : Stable P) {f : Outgoing → Outgoing}
    (hf : ∀ m, (f m).output = m.output ∧ (f m).attached = m.attached ∧
      (f m).header = m.header ∧ (f m).headerSent = m.headerSent) :
    Preserves P (Http.modifyMsg f : M σ Unit) := by
  intro s hs
  obtain ⟨h₁, h₂, h₃, h₄⟩ := hf s.msg
  exact h.fields s (f s.msg) hs h₁ h₂ h₃ h₄

theorem renderHeaders (_ : Stable P) : Preserves P (renderHeaders : M σ Headers) := by
  refine Preserves.getMsg.bind fun m => ?_
  split_ifs
  · exact (Preserves.throw _).bind fun _ => Preserves.pure _
  · exact Preserves.pure _

theorem writeHead (h : Stable P) (statusCode : ℕ) (reasonPhrase : Option JSString)
    (obj : Option HeadersArg) : Preserves P (writeHead statusCode reasonPhrase obj : M σ Unit) := by
  refine Preserves.bind (h.modifyMsg ?_) fun _ => ?_
  · intro m
    exact ⟨rfl, rfl, rfl, rfl⟩
  refine Preserves.getMsg.bind fun m => ?_
  have hstore : ∀ headers : Headers, Preserves P (do
      Http.modifyMsg fun m => { m with
        hasBody := m.hasBody && !bodiless statusCode
        shouldKeepAlive := m.shouldKeepAlive && !(m.expectContinue && !m.sent100) }
      Http.sendHeader (statusLine statusCode reasonPhrase) headers.lines : M σ Unit) := by
    intro headers
    refine Preserves.bind (h.modifyMsg ?_) fun _ => h.sendHeader _ _
    intro m
    exact ⟨rfl, rfl, rfl, rfl⟩
  cases obj with
  | none =>
    dsimp only
    split_ifs
    · exact h.renderHeaders.bind hstore
    · exact (Preserves.pure _).bind hstore
  | some obj =>
    dsimp only
    split_ifs
    · exact (h.renderHeaders.map _).bind hstore
    · exact (Preserves.pure _).bind hstore

theorem implicitHeader (h : Stable P) : Preserves P (implicitHeader : M σ Unit) := by
  refine Preserves.getMsg.bind fun m => ?_
  split_ifs
  · exact h.writeHead _ _ _
  · exact Preserves.pure _

theorem writeContinue (h : Stable P) : Preserves P (writeContinue : M σ Unit) := by
  refine Preserves.bind (h.writeRaw _ _ (by decide)) fun _ => h.modifyMsg ?_
  intro m
  exact ⟨rfl, rfl, rfl, rfl⟩

theorem write (h : Stable P) (chunk : Chunk) (encoding : EncArg) :
    Preserves P (write chunk encoding : M σ Bool) := by
  refine h.implicitHeader.bind fun _ => ?_
  refine Preserves.getMsg.bind fun m => ?_
  split_ifs
  · exact Preserves.pure _
  · exact Preserves.pure _
  · cases chunk with
    | str s => exact h.send _ _
    | buffer b =>
      refine (h.send _ _).bind fun _ => ?_
      refine (h.send _ _).bind fun _ => ?_
      exact h.send _ _
  · exact h.send _ _

theorem endSend (h : Stable P) : Preserves P (endSend : M σ Bool) := by
  refine Preserves.getMsg.bind fun m => ?_
  split_ifs
  · exact h.send _ _
  · exact h.send _ _

theorem endBody (h : Stable P) (data : Option Chunk) (encoding : EncArg) :
    Preserves P (endBody data encoding : M σ Bool) := by
  intro s hs
  cases data with
  | none => exact h.endSend s hs
  | some chunk =>
    cases chunk with
    | buffer b => exact (h.write _ _).bind (fun _ => h.endSend) s hs
    | str t =>
      have hrun : Http.endBody (some (.str t)) encoding s =
          (if hotPath s.msg (some (.str t)) (Connection.writable s.sock) = true then (do
            let ret ← connectionWrite (.str (hotText s.msg t encoding)) encoding
            Http.modifyMsg fun m => { m with headerSent := true }
            return ret)
          else if t.length > 0 then (do
            let _ ← Http.write (.str t) encoding
            Http.endSend)
          else Http.endSend : M σ Bool) s := rfl
      unfold after
      rw [hrun]
      split_ifs with hhot hlen
      · simp only [hotPath, Bool.and_eq_true] at hhot
        obtain ⟨hfail, hok⟩ := h.hot s (.str (hotText s.msg t encoding)) encoding hs hhot.1.2 hhot.2
        refine after_bind ?_ ?_
        · unfold after connectionWrite
          generalize Connection.write s.sock (.str (hotText s.msg t encoding)) encoding = r at hfail
          obtain ⟨result, sock⟩ := r
          cases result with
          | ok r => exact hfail
          | error e => exact hfail
        · intro a s' hwrite
          unfold connectionWrite at hwrite
          generalize Connection.write s.sock (.str (hotText s.msg t encoding)) encoding = r
            at hok hwrite
          obtain ⟨result, sock⟩ := r
          cases result with
          | ok r =>
            injection hwrite with _ hs'
            rw [← hs']
            exact hok
          | error e => cases hwrite
      · exact (h.write _ _).bind (fun _ => h.endSend) s hs
      · exact h.endSend s hs

theorem «end» (h : Stable P) (data : Option Chunk) (encoding : EncArg) :
    Preserves P (Http.end data encoding : M σ (Bool × Bool)) := by
  refine Preserves.getMsg.bind fun m => ?_
  split_ifs
  · exact Preserves.pure _
  · refine h.implicitHeader.bind fun _ => ?_
    refine Preserves.getMsg.bind fun m => ?_
    refine (h.endBody _ _).bind fun ret => ?_
    refine Preserves.bind (h.modifyMsg ?_) fun _ => ?_
    · intro m
      exact ⟨rfl, rfl, rfl, rfl⟩
    refine Preserves.getMsg.bind fun m => ?_
    split_ifs
    · exact Preserves.pure _
    · exact Preserves.throw _
    · exact Preserves.pure _

theorem setHeader (h : Stable P) (name : JSString) (value : Value) :
    Preserves P (setHeader name value : M σ Unit) := by
  refine Preserves.getMsg.bind fun m => ?_
  split_ifs
  · exact (Preserves.throw _).bind fun _ => h.modifyMsg fun m => ⟨rfl, rfl, rfl, rfl⟩
  · exact h.modifyMsg fun m => ⟨rfl, rfl, rfl, rfl⟩

theorem removeHeader (h : Stable P) (name : JSString) :
    Preserves P (removeHeader name : M σ Unit) := by
  refine Preserves.getMsg.bind fun m => ?_
  split_ifs
  · exact (Preserves.throw _).bind fun _ => h.modifyMsg fun m => ⟨rfl, rfl, rfl, rfl⟩
  · exact h.modifyMsg fun m => ⟨rfl, rfl, rfl, rfl⟩

theorem addTrailers (h : Stable P) (headers : List Line) :
    Preserves P (addTrailers headers : M σ Unit) := by
  apply h.modifyMsg
  intro m
  exact ⟨rfl, rfl, rfl, rfl⟩

end Stable

/-! ### A message that writes to its connection -/

/-- A property that neither a write to the connection nor a change of the queue breaks. -/
structure Through (P : Endpoint σ → Prop) : Prop where
  write : ∀ s data encoding, P s → P { s with sock := (Connection.write s.sock data encoding).2 }
  output : ∀ s output, P s → P { s with msg := { s.msg with output := output } }

namespace Through
variable {P : Endpoint σ → Prop}

theorem connectionWrite (h : Through P) (data : Chunk) (encoding : EncArg) :
    Preserves P (connectionWrite data encoding : M σ Bool) := by
  intro s hs
  have hwrite := h.write s data encoding hs
  unfold after Http.connectionWrite
  generalize Connection.write s.sock data encoding = r at hwrite
  obtain ⟨result, sock⟩ := r
  cases result with
  | ok r => exact hwrite
  | error e => exact hwrite

theorem writable (_ : Through P) : Preserves P (writable : M σ Bool) := fun _ hs => hs

theorem bufferData (h : Through P) (data : Chunk) (encoding : EncArg) :
    Preserves P (bufferData data encoding : M σ Unit) := fun s hs => h.output s _ hs

theorem shift (h : Through P) (output : List (Chunk × EncArg)) :
    Preserves P (modifyMsg fun m => { m with output := output } : M σ Unit) :=
  fun s hs => h.output s output hs

theorem writeThrough (h : Through P) (data : Chunk) (encoding : EncArg)
    (output : List (Chunk × EncArg)) :
    Preserves P (writeThrough data encoding output : M σ Bool) := by
  induction output with
  | nil => exact h.connectionWrite _ _
  | cons w output ih =>
    refine h.writable.bind fun r => ?_
    split_ifs
    · exact (h.bufferData _ _).bind fun _ => Preserves.pure _
    · refine (h.shift output).bind fun _ => ?_
      exact (h.connectionWrite _ _).bind fun _ => ih

theorem writeRaw (h : Through P) (data : Chunk) (encoding : EncArg) :
    Preserves P (writeRaw data encoding : M σ Bool) := by
  refine Preserves.getMsg.bind fun m => ?_
  refine h.writable.bind fun r => ?_
  split_ifs
  · exact h.writeThrough _ _ _
  · exact (h.bufferData _ _).bind fun _ => Preserves.pure _

theorem flushOutput (h : Through P) (ret : Bool) (output : List (Chunk × EncArg)) :
    Preserves P (flushOutput ret output : M σ Flushed) := by
  induction output generalizing ret with
  | nil =>
    refine Preserves.getMsg.bind fun m => ?_
    split_ifs
    · exact Preserves.pure _
    · exact Preserves.pure _
    · exact Preserves.pure _
  | cons w output ih =>
    refine h.writable.bind fun r => ?_
    split_ifs
    · exact Preserves.pure _
    · refine (h.shift output).bind fun _ => ?_
      exact (h.connectionWrite _ _).bind fun ret => ih ret

theorem flush (h : Through P) : Preserves P (flush : M σ Flushed) := by
  refine Preserves.getMsg.bind fun m => ?_
  split_ifs
  · exact Preserves.pure _
  · exact h.flushOutput _ _

end Through

/-- A property that neither a write to the connection nor a change to the message breaks, as long
as the message keeps its connection. -/
structure Loose (P : Endpoint σ → Prop) : Prop where
  write : ∀ s data encoding, P s → P { s with sock := (Connection.write s.sock data encoding).2 }
  msg : ∀ s m, P s → m.attached = s.msg.attached → P { s with msg := m }

namespace Loose
variable {P : Endpoint σ → Prop}

theorem through (h : Loose P) : Through P := ⟨h.write, fun s _ hs => h.msg s _ hs rfl⟩

theorem modifyMsg (h : Loose P) {f : Outgoing → Outgoing} (hf : ∀ m, (f m).attached = m.attached) :
    Preserves P (Http.modifyMsg f : M σ Unit) := fun s hs => h.msg s (f s.msg) hs (hf s.msg)

theorem send (h : Loose P) (data : Chunk) (encoding : EncArg) :
    Preserves P (send data encoding : M σ Bool) := by
  refine Preserves.getMsg.bind fun m => ?_
  split_ifs
  · exact h.through.writeRaw _ _
  · cases data with
    | str t =>
      refine Preserves.bind (h.modifyMsg ?_) fun _ => h.through.writeRaw _ _
      intro m
      rfl
    | buffer b =>
      refine Preserves.bind (h.modifyMsg ?_) fun _ => h.through.writeRaw _ _
      intro m
      rfl

theorem stable (h : Loose P) : Stable P where
  send := h.send
  writeRaw data encoding _ := h.through.writeRaw data encoding
  hot s data encoding hs _ _ := by
    have hwrite := h.write s data encoding hs
    exact ⟨hwrite, h.msg _ { s.msg with headerSent := true } hwrite rfl⟩
  store s firstLine lines hs := by
    apply h.msg s _ hs
    obtain ⟨last, chunkedEncoding, shouldKeepAlive, hmsg⟩ := storeLines_msg s.msg lines
    show (storeLines s.msg lines).msg.attached = s.msg.attached
    rw [hmsg]
  fields s m hs _ hattached _ _ := h.msg s m hs hattached

end Loose

/-! ### A message that cannot write -/

theorem writeRaw_blocked {s : Endpoint σ}
    (h : (s.msg.attached && Connection.writable s.sock) = false) (data : Chunk)
    (encoding : EncArg) :
    writeRaw data encoding s =
      .ok false { s with msg := { s.msg with output := buffer s.msg.output data encoding } } := by
  have hrun : writeRaw data encoding s =
      (if (s.msg.attached && Connection.writable s.sock) = true then
          writeThrough data encoding s.msg.output
        else do
          bufferData data encoding
          return false) s := rfl
  rw [hrun, h, if_neg Bool.false_ne_true]
  rfl

theorem buffer_ne_nil {output : List (Chunk × EncArg)} {data : Chunk} (encoding : EncArg)
    (h : output ≠ [] ∨ data.length ≠ 0) : buffer output data encoding ≠ [] := by
  unfold buffer
  split_ifs with hlen
  · exact h.resolve_right fun hne => hne hlen
  · split
    · split_ifs
      · simp
      · simp
    · split_ifs
      · simp
      · simp
    · simp

/-- The connection is left alone; with `pending`, the header is in the queue once it is sent. -/
structure Blocked (pending attached : Bool) (sock : σ) (s : Endpoint σ) : Prop where
  sock_eq : s.sock = sock
  attached_eq : s.msg.attached = attached
  blocked : (attached && Connection.writable sock) = false
  header : pending = true → ∀ text, s.msg.header = some text → text ≠ []
  output : pending = true → s.msg.headerSent = true → s.msg.output ≠ []

theorem Blocked.guard {pending attached : Bool} {sock : σ} {s : Endpoint σ}
    (h : Blocked pending attached sock s) :
    (s.msg.attached && Connection.writable s.sock) = false := by
  rw [h.attached_eq, h.sock_eq]
  exact h.blocked

theorem Blocked.headerText_ne_nil {pending attached : Bool} {sock : σ} {s : Endpoint σ}
    (h : Blocked pending attached sock s) (hp : pending = true) : s.msg.headerText ≠ [] := by
  unfold Outgoing.headerText
  cases htext : s.msg.header with
  | none => decide
  | some text => exact h.header hp text htext

/-- What is put into the queue leaves the connection alone. -/
theorem Blocked.queued {pending attached : Bool} {sock : σ} {s : Endpoint σ}
    (h : Blocked pending attached sock s) (headerSent : Bool) {output : List (Chunk × EncArg)}
    (ho : pending = true → output ≠ []) :
    Blocked pending attached sock
      { s with msg := { s.msg with headerSent := headerSent, output := output } } :=
  ⟨h.sock_eq, h.attached_eq, h.blocked, h.header, fun hp _ => ho hp⟩

theorem Blocked.send {pending attached : Bool} {sock : σ} (data : Chunk) (encoding : EncArg) :
    Preserves (Blocked pending attached sock) (send data encoding) := by
  intro s h
  have hguard := h.guard
  unfold after
  cases hsent : s.msg.headerSent with
  | true =>
    have hrun : Http.send data encoding s = writeRaw data encoding s := by
      simp [Http.send, getMsg, bind, EStateM.bind, hsent]
    rw [hrun, writeRaw_blocked hguard]
    apply h.queued s.msg.headerSent
    intro hp
    exact buffer_ne_nil encoding (Or.inl (h.output hp hsent))
  | false =>
    cases data with
    | str t =>
      have hrun : Http.send (.str t) encoding s = writeRaw (.str (s.msg.headerText ++ t)) encoding
          { s with msg := { s.msg with headerSent := true } } := by
        simp [Http.send, getMsg, modifyMsg, bind, EStateM.bind, hsent]
      have hblocked := writeRaw_blocked
        (s := { s with msg := { s.msg with headerSent := true } }) hguard
        (.str (s.msg.headerText ++ t)) encoding
      rw [hrun, hblocked]
      apply h.queued true
      intro hp
      refine buffer_ne_nil encoding (Or.inr ?_)
      intro hlen
      exact h.headerText_ne_nil hp (List.append_eq_nil_iff.mp (List.length_eq_zero_iff.mp hlen)).1
    | buffer b =>
      have hrun : Http.send (.buffer b) encoding s = writeRaw (.buffer b) encoding
          { s with msg := { s.msg with
              output := (.str s.msg.headerText, some (encName .ascii)) :: s.msg.output
              headerSent := true } } := by
        simp [Http.send, getMsg, modifyMsg, bind, EStateM.bind, hsent, Outgoing.headerText]
      have hblocked := writeRaw_blocked
        (s := { s with msg := { s.msg with
          output := (.str s.msg.headerText, some (encName .ascii)) :: s.msg.output
          headerSent := true } }) hguard (.buffer b) encoding
      rw [hrun, hblocked]
      apply h.queued true
      intro _
      exact buffer_ne_nil encoding (Or.inl (List.cons_ne_nil _ _))

theorem Blocked.stable (pending attached : Bool) (sock : σ) :
    Stable (Blocked pending attached sock) where
  send := Blocked.send
  writeRaw data encoding hdata s h := by
    unfold after
    rw [writeRaw_blocked h.guard]
    apply h.queued s.msg.headerSent
    intro _
    exact buffer_ne_nil encoding (Or.inr hdata)
  hot s data encoding h hattached hwritable := by
    have hguard := h.guard
    rw [hattached, hwritable] at hguard
    cases hguard
  store s firstLine lines h := by
    obtain ⟨last, chunkedEncoding, shouldKeepAlive, hmsg⟩ := storeLines_msg s.msg lines
    refine ⟨h.sock_eq, ?_, h.blocked, ?_, ?_⟩
    · show (storeLines s.msg lines).msg.attached = attached
      rw [hmsg]
      exact h.attached_eq
    · intro _ text htext
      obtain rfl : render firstLine (storeLines s.msg lines).lines = text := Option.some.inj htext
      simp [render, CRLF, js]
    · intro _ hsent
      cases hsent
  fields s m h ho ha hh hs := by
    refine ⟨h.sock_eq, ha.trans h.attached_eq, h.blocked, ?_, ?_⟩
    · intro hp text htext
      exact h.header hp text (hh.symm.trans htext)
    · intro hp hsent
      show m.output ≠ []
      rw [ho]
      exact h.output hp (hs.symm.trans hsent)

/-! ### `'finish'` -/

theorem through_headerSent : Through (fun s : Endpoint σ => s.msg.headerSent = true) :=
  ⟨fun _ _ _ hs => hs, fun _ _ hs => hs⟩

theorem send_headerSent {data : Chunk} {encoding : EncArg} {s s' : Endpoint σ} {r : Bool}
    (h : send data encoding s = .ok r s') : s'.msg.headerSent = true := by
  have hraw := fun data => through_headerSent.writeRaw (σ := σ) data encoding
  obtain ⟨m, s₁, hget, h⟩ := bind_eq_ok h
  injection hget with hm hs₁
  subst hm hs₁
  split_ifs at h with hsent
  · exact (hraw data).of_ok hsent h
  · cases data with
    | str t =>
      obtain ⟨u, s₂, hmod, h⟩ := bind_eq_ok h
      injection hmod with _ hs₂
      subst hs₂
      exact (hraw _).of_ok rfl h
    | buffer b =>
      obtain ⟨u, s₂, hmod, h⟩ := bind_eq_ok h
      injection hmod with _ hs₂
      subst hs₂
      exact (hraw _).of_ok rfl h

theorem endSend_headerSent {s s' : Endpoint σ} {r : Bool} (h : endSend s = .ok r s') :
    s'.msg.headerSent = true := by
  obtain ⟨m, s₁, hget, h⟩ := bind_eq_ok h
  split_ifs at h
  · exact send_headerSent h
  · exact send_headerSent h

theorem endBody_headerSent {data : Option Chunk} {encoding : EncArg} {s s' : Endpoint σ} {r : Bool}
    (h : endBody data encoding s = .ok r s') : s'.msg.headerSent = true := by
  obtain ⟨m, s₁, hget, h⟩ := bind_eq_ok h
  cases data with
  | none => exact endSend_headerSent h
  | some chunk =>
    cases chunk with
    | buffer b =>
      obtain ⟨_, s₂, -, h⟩ := bind_eq_ok h
      exact endSend_headerSent h
    | str t =>
      obtain ⟨w, s₂, -, h⟩ := bind_eq_ok h
      split_ifs at h
      · obtain ⟨ret, s₃, -, h⟩ := bind_eq_ok h
        obtain ⟨u, s₄, hmod, h⟩ := bind_eq_ok h
        injection hmod with _ hs₄
        injection h with _ hs'
        rw [← hs', ← hs₄]
      · obtain ⟨_, s₃, -, h⟩ := bind_eq_ok h
        exact endSend_headerSent h
      · exact endSend_headerSent h

/-- `end` emits `'finish'` on a message that has its connection, has sent its header and has
nothing in its queue. -/
theorem end_finish {data : Option Chunk} {encoding : EncArg} {s s' : Endpoint σ} {ret : Bool}
    (h : «end» data encoding s = .ok (ret, true) s') :
    s'.msg.attached = true ∧ s'.msg.output = [] ∧ s'.msg.headerSent = true := by
  obtain ⟨m, s₁, -, h⟩ := bind_eq_ok h
  split_ifs at h
  · injection h with hr _
    cases hr
  · obtain ⟨_, s₂, -, h⟩ := bind_eq_ok h
    obtain ⟨m₂, s₃, -, h⟩ := bind_eq_ok h
    obtain ⟨r, s₄, hbody, h⟩ := bind_eq_ok h
    obtain ⟨_, s₅, hmod, h⟩ := bind_eq_ok h
    obtain ⟨m₅, s₆, hget, h⟩ := bind_eq_ok h
    have hsent := endBody_headerSent hbody
    injection hmod with _ hs₅
    injection hget with hm₅ hs₆
    split_ifs at h with hout hatt
    · injection h with _ hs'
      rw [← hs', ← hs₆]
      rw [← hm₅] at hout hatt
      refine ⟨hatt, List.isEmpty_iff.mp hout, ?_⟩
      rw [← hs₅]
      exact hsent
    · cases h
    · injection h with hr _
      cases hr

end NodeJS.Http
