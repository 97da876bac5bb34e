import NodeJS.HttpParser.Lines

/-! What `http_parser_execute` makes of the first line of a message. -/
namespace NodeJS.HttpParser
open Lib.Marks (Act Machine Feed fed)

variable {U : Type} (strict : Bool) {f : Feed UInt8 Mark Notification U}

/-! ### Messages begin -/

/-- A client that does not interfere when a message begins or is complete. -/
structure Willing (f : Feed UInt8 Mark Notification U) : Prop where
  messageBegin : ∀ m u, (f.ask (.messageBegin m) u).1 = 0
  messageComplete : ∀ m u, (f.ask (.messageComplete m) u).1 = 0

def Message.fresh (m : Message) : Message := { m with flags := .none, contentLength := -1 }

/-- The client after `on_message_begin`. -/
def hearBegin (f : Feed UInt8 Mark Notification U) (u : U) (m : Message) : U :=
  (f.ask (.messageBegin m) u).2

def hearComplete (f : Feed UInt8 Mark Notification U) (u : U) (m : Message) : U :=
  (f.ask (.messageComplete m) u).2

theorem feed_messageBegin (hw : Willing f) {q : Parser} {rest : Parser → Step} (a : UInt8) (u : U) :
    (messageBegin q rest).feed f a u =
      (rest { q with toMessage := q.toMessage.fresh }).feed f a (hearBegin f u q.toMessage.fresh) := by
  unfold messageBegin CALLBACK2
  rw [Act.feed]
  dsimp only
  rw [show (f.ask (.messageBegin _) u).1 = 0 from hw.messageBegin _ u, if_neg (by decide)]
  rfl

theorem feed_messageComplete (hw : Willing f) {q : Parser} (a : UInt8) (u : U) :
    (messageComplete strict q).feed f a u =
      (.inl { q with state := NEW_MESSAGE strict q }, hearComplete f u q.toMessage) := by
  unfold messageComplete CALLBACK2
  rw [Act.feed, hw.messageComplete, if_neg (by decide)]
  rfl

/-! ### Versions -/

/-- `x.y`, in one digit each. -/
structure Version where
  major : UInt8
  minor : UInt8
  major_digit : 0x31 ≤ major ∧ major ≤ 0x39
  minor_digit : IS_NUM minor = true

def Version.bytes (v : Version) : Bytes := [v.major, 0x2e, v.minor]

def Message.version (m : Message) (v : Version) : Message :=
  { m with httpMajor := digit v.major, httpMinor := digit v.minor }

/-- The three bytes of a version, in the states of a request or of a response. -/
theorem reads_version (v : Version) (s₁ s₂ s₃ s₄ : State)
    (h₁ : ∀ q ch, switch strict q ch 1 s₁ = firstHttpMajor q ch s₂)
    (h₂ : ∀ q ch, switch strict q ch 1 s₂ = httpMajor q ch s₃)
    (h₃ : ∀ q ch, switch strict q ch 1 s₃ = firstHttpMinor q ch s₄)
    (hheader : ∀ s ∈ [s₁, s₂, s₃], s.parsingHeader = true)
    (hmarks : ∀ s ∈ [s₂, s₃, s₄], s.marks = ∅) {q : Parser} (hs : q.state = s₁)
    (hnread : q.nread + 3 ≤ HTTP_MAX_HEADER_SIZE) (u : U) :
    Reads strict f v.bytes q u
      { q.count 3 with toMessage := q.toMessage.version v, state := s₄ } u := by
  have hmajor : Reads strict f [v.major] q u
      { q.count 1 with httpMajor := digit v.major, state := s₂ } u := by
    refine reads_plain (by rw [hs]; exact hheader s₁ (by simp)) (by omega)
      (hmarks s₂ (by simp)) ?_
    obtain ⟨hle, hge⟩ := v.major_digit
    rw [hs, h₁, firstHttpMajor, if_neg (by simp [UInt8.not_lt.mpr hle, UInt8.not_lt.mpr hge])]
    rfl
  have hdot : Reads strict f [0x2e] { q.count 1 with httpMajor := digit v.major, state := s₂ } u
      { q.count 2 with httpMajor := digit v.major, state := s₃ } u := by
    refine reads_plain (hheader s₂ (by simp)) (by show q.nread + 1 < _; omega)
      (hmarks s₃ (by simp)) ?_
    rw [h₂, httpMajor, if_pos rfl]
    rfl
  have hminor : Reads strict f [v.minor]
      { q.count 2 with httpMajor := digit v.major, state := s₃ } u
      { q.count 3 with toMessage := q.toMessage.version v, state := s₄ } u := by
    refine reads_plain (hheader s₃ (by simp)) (by show q.nread + 2 < _; omega)
      (hmarks s₄ (by simp)) ?_
    rw [h₃, firstHttpMinor, v.minor_digit, if_neg (by decide)]
    rfl
  exact hmajor.append (hdot.append hminor)

/-! ### Status lines -/

def codeStep (n : ℕ) (c : UInt8) : ℕ := n * 10 + digit c

def codeOf (code : Bytes) : ℕ := code.foldl codeStep 0

theorem le_foldl_codeStep (n : ℕ) (code : Bytes) : n ≤ code.foldl codeStep n := by
  induction code generalizing n with
  | nil => exact le_rfl
  | cons c code ih => exact (show n ≤ n * 10 + digit c by omega).trans (ih _)

structure StatusLine where
  version : Version
  code : Bytes
  reason : Bytes
  code_ne_nil : code ≠ []
  code_digits : ∀ c ∈ code, IS_NUM c = true
  code_small : codeOf code ≤ 999
  reason_line : ∀ c ∈ reason, c ≠ CR ∧ c ≠ LF

def StatusLine.bytes (l : StatusLine) : Bytes :=
  HttpParser.bytes "HTTP/" ++ (l.version.bytes ++ (0x20 :: l.code ++
    (0x20 :: l.reason ++ [CR, LF])))

def Message.statusLine (m : Message) (l : StatusLine) : Message :=
  { m.fresh.version l.version with statusCode := codeOf l.code }

theorem reads_codeRest {q : Parser} (hs : q.state = .resStatusCode) {code : Bytes}
    (hdigits : ∀ c ∈ code, IS_NUM c = true) (hsmall : code.foldl codeStep q.statusCode ≤ 999)
    (hnread : q.nread + code.length ≤ HTTP_MAX_HEADER_SIZE) (u : U) :
    Reads strict f code q u { q.count code.length with
      statusCode := code.foldl codeStep q.statusCode, state := .resStatusCode } u := by
  induction code generalizing q with
  | nil =>
    rw [← hs]
    exact .nil
  | cons c code ih =>
    rw [List.length_cons] at hnread
    rw [List.foldl_cons] at hsmall ⊢
    have hstep := (le_foldl_codeStep (codeStep q.statusCode c) code).trans hsmall
    have hone : Reads strict f [c] q u { q.count 1 with
        statusCode := codeStep q.statusCode c, state := .resStatusCode } u := by
      refine reads_plain (by rw [hs]; rfl) (by omega) rfl ?_
      rw [hs, switch, resStatusCode, hdigits c List.mem_cons_self, if_neg (by decide), ← hs]
      exact congrArg (fun a : Step => a.feed f c u) (if_neg (Nat.not_lt.mpr hstep))
    have hmore := ih (q := { q.count 1 with
        statusCode := codeStep q.statusCode c, state := .resStatusCode }) rfl
      (fun d hd => hdigits d (List.mem_cons_of_mem _ hd)) hsmall
      (by show q.nread + 1 + code.length ≤ _; omega)
    rw [List.length_cons, Nat.add_comm, ← Parser.count_count]
    exact hone.append hmore

theorem reads_code {q : Parser} (hs : q.state = .resFirstStatusCode) {code : Bytes}
    (hne : code ≠ []) (hdigits : ∀ c ∈ code, IS_NUM c = true) (hsmall : codeOf code ≤ 999)
    (hnread : q.nread + code.length ≤ HTTP_MAX_HEADER_SIZE) (u : U) :
    Reads strict f code q u
      { q.count code.length with statusCode := codeOf code, state := .resStatusCode } u := by
  obtain ⟨c, code, rfl⟩ := List.exists_cons_of_ne_nil hne
  rw [List.length_cons] at hnread
  have hone : Reads strict f [c] q u
      { q.count 1 with statusCode := digit c, state := .resStatusCode } u := by
    refine reads_plain (by rw [hs]; rfl) (by omega) rfl ?_
    rw [hs, switch, firstStatusCode, hdigits c List.mem_cons_self, if_neg (by decide)]
    rfl
  have hcode : codeOf (c :: code) = code.foldl codeStep (digit c) := by
    rw [codeOf, List.foldl_cons, codeStep, Nat.zero_mul, Nat.zero_add]
  rw [hcode] at hsmall
  have hmore := reads_codeRest strict (f := f) (q :=
    { q.count 1 with statusCode := digit c, state := .resStatusCode }) rfl
    (fun d hd => hdigits d (List.mem_cons_of_mem _ hd)) hsmall
    (by show q.nread + 1 + code.length ≤ _; omega) u
  rw [List.length_cons, Nat.add_comm, ← Parser.count_count, hcode]
  exact hone.append hmore

theorem path_reason {l : Bytes} (h : ∀ c ∈ l, c ≠ CR ∧ c ≠ LF) :
    Path strict .resStatus l .resStatus := by
  induction l with
  | nil => exact .nil _
  | cons c l ih =>
    refine .cons ⟨rfl, rfl, fun q hs => ?_⟩ (ih fun d hd => h d (List.mem_cons_of_mem _ hd))
    obtain ⟨hcr, hlf⟩ := h c List.mem_cons_self
    rw [switch, if_neg hcr, if_neg hlf, goto, ← hs]

theorem strict_check_self (a : UInt8) (q : Parser) (rest : Step) :
    STRICT_CHECK strict (a ≠ a) q rest = rest := by
  unfold STRICT_CHECK
  exact if_neg (by simp)

theorem path_resHttp : Path strict .resH [0x54, 0x54, 0x50, 0x2f] .resFirstHttpMajor :=
  .cons ⟨rfl, rfl, fun q _ => strict_check_self strict _ q _⟩ <|
  .cons ⟨rfl, rfl, fun q _ => strict_check_self strict _ q _⟩ <|
  .cons ⟨rfl, rfl, fun q _ => strict_check_self strict _ q _⟩ <|
  .cons ⟨rfl, rfl, fun q _ => strict_check_self strict _ q _⟩ <| .nil _

theorem path_statusEnd {reason : Bytes} (h : ∀ c ∈ reason, c ≠ CR ∧ c ≠ LF) :
    Path strict .resStatusCode (0x20 :: reason ++ [CR, LF]) .headerFieldStart := by
  have hend : Path strict .resStatus [CR, LF] .headerFieldStart :=
    .cons ⟨rfl, rfl, fun q _ => rfl⟩ <|
    .cons ⟨rfl, rfl, fun q _ => strict_check_self strict _ q _⟩ <| .nil _
  exact .cons ⟨rfl, rfl, fun q _ => rfl⟩ ((path_reason strict h).append hend)

def Parser.moved (q : Parser) (n : ℕ) (m : Message) (s : State) : Parser :=
  { q.count n with toMessage := m, state := s }

theorem Path.moves {s s' : State} {l : Bytes} (h : Path strict s l s') {q : Parser} {n : ℕ}
    {m : Message} (hnread : q.nread + (n + l.length) ≤ HTTP_MAX_HEADER_SIZE) (u : U) :
    Reads strict f l (q.moved n m s) u (q.moved (n + l.length) m s') u := by
  have hread := h.reads (f := f) (q := q.moved n m s) rfl
    (by show q.nread + n + l.length ≤ _; omega) u
  rw [show ({ (q.moved n m s).count l.length with state := s' } : Parser) =
    q.moved (n + l.length) m s' by simp only [Parser.moved, Parser.count, Nat.add_assoc]] at hread
  exact hread

/-- A status line is read, and the message begins. -/
theorem reads_statusLine (hw : Willing f) (l : StatusLine) {q : Parser} (hs : q.state = .startRes)
    (hnread : q.nread + l.bytes.length ≤ HTTP_MAX_HEADER_SIZE) (u : U) :
    ∃ q', Reads strict f l.bytes q u q' (hearBegin f u q.toMessage.fresh) ∧
      Between q' (q.toMessage.statusLine l) (q.nread + l.bytes.length) := by
  have hlength : l.bytes.length = 9 + l.code.length + (l.reason.length + 3) := by
    simp only [StatusLine.bytes, Version.bytes, List.length_append, List.length_cons,
      List.length_nil, show (bytes "HTTP/").length = 5 by decide]
    omega
  rw [hlength] at hnread
  have hbegin : Reads strict f [0x48] q u (q.moved 1 q.toMessage.fresh .resH)
      (hearBegin f u q.toMessage.fresh) := by
    refine reads_plain (by rw [hs]; rfl) (by omega) rfl ?_
    rw [hs, switch, feed_messageBegin hw, if_pos rfl]
    rfl
  generalize hearBegin f u q.toMessage.fresh = u' at hbegin ⊢
  have hhttp := (path_resHttp strict).moves strict (f := f) (q := q) (n := 1)
    (m := q.toMessage.fresh) (by show q.nread + 5 ≤ _; omega) u'
  have hversion : Reads strict f l.version.bytes
      (q.moved 5 q.toMessage.fresh .resFirstHttpMajor) u'
      (q.moved 8 (q.toMessage.fresh.version l.version) .resHttpMinor) u' :=
    reads_version strict l.version .resFirstHttpMajor .resHttpMajor .resFirstHttpMinor
      .resHttpMinor (fun _ _ => rfl) (fun _ _ => rfl) (fun _ _ => rfl) (by decide) (by decide) rfl
      (by show q.nread + 5 + 3 ≤ _; omega) u'
  have hspace : Path strict .resHttpMinor [0x20] .resFirstStatusCode :=
    .cons ⟨rfl, rfl, fun _ _ => rfl⟩ (.nil _)
  have hcode : Reads strict f l.code
      (q.moved 9 (q.toMessage.fresh.version l.version) .resFirstStatusCode) u'
      (q.moved (9 + l.code.length) (q.toMessage.statusLine l) .resStatusCode) u' := by
    have hread := reads_code strict (f := f)
      (q := q.moved 9 (q.toMessage.fresh.version l.version) .resFirstStatusCode) rfl
      l.code_ne_nil l.code_digits l.code_small (by show q.nread + 9 + _ ≤ _; omega) u'
    rw [show q.moved (9 + l.code.length) (q.toMessage.statusLine l) .resStatusCode =
      { (q.moved 9 (q.toMessage.fresh.version l.version) .resFirstStatusCode).count l.code.length
        with statusCode := codeOf l.code, state := .resStatusCode }
      by simp only [Parser.moved, Parser.count, Nat.add_assoc]; rfl]
    exact hread
  have hend := (path_statusEnd strict l.reason_line).moves strict (f := f) (q := q)
    (n := 9 + l.code.length) (m := q.toMessage.statusLine l)
    (by simp only [List.length_append, List.length_cons, List.length_nil]; omega) u'
  have hread := hbegin.append (hhttp.append (hversion.append ((hspace.moves strict
    (by show q.nread + 9 ≤ _; omega) u').append (hcode.append hend))))
  have hbytes : [0x48] ++ ([0x54, 0x54, 0x50, 0x2f] ++ (l.version.bytes ++ ([0x20] ++
      (l.code ++ (0x20 :: l.reason ++ [CR, LF]))))) = l.bytes := by
    have hhttp : bytes "HTTP/" = [0x48, 0x54, 0x54, 0x50, 0x2f] := by decide
    rw [StatusLine.bytes, hhttp]
    rfl
  rw [hbytes] at hread
  refine ⟨_, hread, rfl, rfl, ?_⟩
  show q.nread + (9 + l.code.length + (0x20 :: l.reason ++ [CR, LF]).length) = _
  rw [hlength]
  simp only [List.length_append, List.length_cons, List.length_nil]

end NodeJS.HttpParser
