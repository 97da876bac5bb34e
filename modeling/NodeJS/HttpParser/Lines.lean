import NodeJS.HttpParser.Names

/-! What `http_parser_execute` makes of the lines of a header. -/
namespace NodeJS.HttpParser
open Lib.Marks (Act Machine Feed fed)

variable {U : Type} {strict : Bool} {f : Feed UInt8 Mark Notification U}

abbrev Reads (strict : Bool) (f : Feed UInt8 Mark Notification U) (l : Bytes) (q : Parser) (u : U)
    (q' : Parser) (u' : U) : Prop :=
  (machine strict).Reads f l q u q' u'

def Parser.count (q : Parser) (n : ℕ) : Parser := { q with nread := q.nread + n }

/-! ### One byte -/

/-- A byte of a header. -/
theorem reads_byte {q q' : Parser} {a : UInt8} {u u' : U} (hheader : q.state.parsingHeader = true)
    (hnread : q.nread < HTTP_MAX_HEADER_SIZE)
    (h : (switch strict (q.count 1) a 1 q.state).feed f a u = (.inl q', u')) :
    Reads strict f [a] q u q' (fed f q'.state.marks a (machine strict).order u') := by
  apply Machine.Reads.one
  have hstep : (machine strict).step q a 1 = switch strict (q.count 1) a 1 q.state := by
    show execByte strict q a 1 = _
    unfold execByte
    rw [if_pos hheader]
    exact if_neg (Nat.not_lt.mpr hnread)
  rw [Machine.byte, hstep, h]
  rfl

/-- A byte of a header that is no part of a piece. -/
theorem reads_plain {q q' : Parser} {a : UInt8} {u u' : U} (hheader : q.state.parsingHeader = true)
    (hnread : q.nread < HTTP_MAX_HEADER_SIZE) (hmarks : q'.state.marks = ∅)
    (h : (switch strict (q.count 1) a 1 q.state).feed f a u = (.inl q', u')) :
    Reads strict f [a] q u q' u' := by
  have hbyte := reads_byte hheader hnread h
  rw [hmarks, Lib.Marks.fed_empty] at hbyte
  exact hbyte

theorem fed_headerField (a : UInt8) (u : U) :
    fed f State.headerField.marks a (machine strict).order u = f.data .headerField [a] u := by
  simp [fed, machine, State.marks]

theorem fed_headerValue (a : UInt8) (u : U) :
    fed f State.headerValue.marks a (machine strict).order u = f.data .headerValue [a] u := by
  simp [fed, machine, State.marks]

theorem feed_callback {ks : List Mark} {q : Parser} {rest : Step} (a : UInt8) (u : U) :
    (CALLBACK ks q rest).feed f a u = rest.feed f a u := by
  induction ks with
  | nil => rfl
  | cons k ks ih =>
    rw [CALLBACK, Act.feed, if_neg (by decide)]
    exact ih

/-- The bytes of a piece, each of which leads from a parser of some kind to another one. -/
theorem reads_piece {piece : Bytes → U → U}
    (happend : ∀ x y u, piece y (piece x u) = piece (x ++ y) u) (P : Parser → Prop)
    (ok : UInt8 → Prop) (next : Parser → UInt8 → Parser)
    (hpiece : ∀ q, P q → q.state.parsingHeader = true ∧
      ∀ a u, fed f q.state.marks a (machine strict).order u = piece [a] u)
    (hstep : ∀ q c, P q → ok c → P (next (q.count 1) c) ∧
      (next (q.count 1) c).nread = q.nread + 1 ∧
      ∀ u, (switch strict (q.count 1) c 1 q.state).feed f c u = (.inl (next (q.count 1) c), u))
    {q : Parser} (hq : P q) {l : Bytes} (hl : ∀ c ∈ l, ok c)
    (hnread : q.nread + l.length ≤ HTTP_MAX_HEADER_SIZE) (x : Bytes) (u : U) :
    Reads strict f l q (piece x u) (l.foldl (fun q c => next (q.count 1) c) q)
      (piece (x ++ l) u) := by
  induction l generalizing q x with
  | nil =>
    rw [List.append_nil]
    exact .nil
  | cons c l ih =>
    obtain ⟨hnext, hcount, hswitch⟩ := hstep q c hq (hl c List.mem_cons_self)
    rw [List.length_cons] at hnread
    have hbyte := reads_byte (f := f) (hpiece q hq).1 (by omega) (hswitch (piece x u))
    rw [(hpiece _ hnext).2, happend] at hbyte
    have hread := hbyte.append (ih hnext (fun d hd => hl d (List.mem_cons_of_mem _ hd))
      (by rw [hcount]; omega) (x ++ [c]))
    rw [List.append_assoc] at hread
    exact hread

/-! ### Words of the protocol -/

/-- A byte that leads from one state to another, and does nothing else. -/
def Leads (strict : Bool) (s : State) (a : UInt8) (s' : State) : Prop :=
  s.parsingHeader = true ∧ s'.marks = ∅ ∧
    ∀ q : Parser, q.state = s → switch strict q a 1 s = goto q s'

/-- Bytes that lead from one state to another. -/
inductive Path (strict : Bool) : State → Bytes → State → Prop
  | nil (s : State) : Path strict s [] s
  | cons {s s' s'' : State} {a : UInt8} {l : Bytes} (h : Leads strict s a s')
      (hrest : Path strict s' l s'') : Path strict s (a :: l) s''

theorem Leads.reads {s s' : State} {a : UInt8} (h : Leads strict s a s') {q : Parser}
    (hs : q.state = s) (hnread : q.nread < HTTP_MAX_HEADER_SIZE) (u : U) :
    Reads strict f [a] q u { q.count 1 with state := s' } u := by
  obtain ⟨hheader, hmarks, hswitch⟩ := h
  apply reads_plain (by rw [hs]; exact hheader) hnread hmarks
  rw [hs, hswitch (q.count 1) hs]
  rfl

theorem Path.reads {s s' : State} {l : Bytes} (h : Path strict s l s') {q : Parser}
    (hs : q.state = s) (hnread : q.nread + l.length ≤ HTTP_MAX_HEADER_SIZE) (u : U) :
    Reads strict f l q u { q.count l.length with state := s' } u := by
  induction h generalizing q with
  | nil s =>
    subst hs
    exact .nil
  | @cons s s' s'' a l h hrest ih =>
    rw [List.length_cons] at hnread ⊢
    have hone := h.reads (f := f) hs (by omega) u
    have hmore := ih (q := { q.count 1 with state := s' }) rfl
      (by show q.nread + 1 + l.length ≤ _; omega)
    have hcount : q.nread + 1 + l.length = q.nread + (l.length + 1) := by omega
    have hread := Machine.Reads.append hone hmore
    rw [show ({ Parser.count { q.count 1 with state := s' } l.length with state := s'' } : Parser) =
      { q.count (l.length + 1) with state := s'' } by simp only [Parser.count, hcount]] at hread
    exact hread

theorem Path.append {s s' s'' : State} {l l' : Bytes} (h : Path strict s l s')
    (h' : Path strict s' l' s'') : Path strict s (l ++ l') s'' := by
  induction h with
  | nil => exact h'
  | cons h _ ih => exact .cons h (ih h')

/-! ### Fields -/

/-- The parser in the middle of a field or a value. -/
def Parser.amid (q : Parser) (s : State) (h : HeaderState × ℕ) : Parser :=
  { q with state := s, headerState := h.1, index := h.2 }

theorem Parser.amid_self {q : Parser} {s : State} (hs : q.state = s) :
    q.amid s (q.headerState, q.index) = q := by
  subst hs
  rfl

theorem Parser.count_count (q : Parser) (n k : ℕ) : (q.count n).count k = q.count (n + k) := by
  simp only [count, Nat.add_assoc]

theorem foldl_amid {s : State} (step : HeaderState × ℕ → UInt8 → HeaderState × ℕ) {q : Parser}
    (hs : q.state = s) (l : Bytes) :
    l.foldl (fun q c => (q.count 1).amid s (step (q.headerState, q.index) c)) q =
      (q.count l.length).amid s (l.foldl step (q.headerState, q.index)) := by
  induction l generalizing q with
  | nil => exact (Parser.amid_self hs).symm
  | cons c l ih =>
    rw [List.foldl_cons, ih rfl, List.length_cons, Nat.add_comm, ← Parser.count_count]
    rfl

theorem fieldStart_isSome (c : UInt8) : (fieldStart c).fieldIndex.isSome = true := by
  unfold fieldStart
  split_ifs <;> rfl

theorem headerFieldStart_token {q : Parser} {c : UInt8} (hc : TOKEN c ≠ 0) :
    headerFieldStart strict q c =
      .mark .headerField (.next (q.amid .headerField (fieldStart (TOKEN c), 0))) := by
  have hcr : c ≠ CR := by
    rintro rfl
    exact hc (by decide)
  have hlf : c ≠ LF := by
    rintro rfl
    exact hc (by decide)
  unfold headerFieldStart
  rw [if_neg hcr, if_neg hlf]
  exact if_neg hc

def State.beginsLine : State → Bool
  | .headerFieldStart | .headerValueLws => true
  | _ => false

variable (strict)

theorem reads_fieldStart (hf : f.Lawful overlap) {q : Parser} (hs : q.state.beginsLine = true)
    {c : UInt8} (hc : TOKEN c ≠ 0) (hspace : c ≠ 0x20)
    (hnread : q.nread < HTTP_MAX_HEADER_SIZE) (u : U) :
    Reads strict f [c] q u ((q.count 1).amid .headerField (fieldStart (TOKEN c), 0))
      (f.data .headerField [c] u) := by
  have hswitch : switch strict (q.count 1) c 1 q.state =
      .mark .headerField (.next ((q.count 1).amid .headerField (fieldStart (TOKEN c), 0))) := by
    cases h : q.state with
    | headerFieldStart => exact headerFieldStart_token hc
    | headerValueLws =>
      have htab : c ≠ 0x09 := by
        rintro rfl
        exact hc (by decide)
      rw [switch, headerValueLws, if_neg (by simp [hspace, htab]), headerFieldStart_token hc]
      rfl
    | _ =>
      rw [h] at hs
      cases hs
  have hheader : q.state.parsingHeader = true := by
    cases h : q.state <;> first | rfl | (rw [h] at hs; cases hs)
  have hbyte := reads_byte (f := f) (u := u) hheader hnread (by rw [hswitch]; rfl)
  rw [show ((q.count 1).amid .headerField (fieldStart (TOKEN c), 0)).state = .headerField from rfl,
    fed_headerField, hf.append] at hbyte
  exact hbyte

theorem reads_field (hf : f.Lawful overlap) {q : Parser} (hs : q.state = .headerField)
    (hh : q.headerState.fieldIndex.isSome = true) {name : Bytes} (hname : ∀ c ∈ name, TOKEN c ≠ 0)
    (hnread : q.nread + name.length ≤ HTTP_MAX_HEADER_SIZE) (x : Bytes) (u : U) :
    Reads strict f name q (f.data .headerField x u)
      ((q.count name.length).amid .headerField (name.foldl fieldStep (q.headerState, q.index)))
      (f.data .headerField (x ++ name) u) := by
  rw [← foldl_amid fieldStep hs]
  refine reads_piece (hf.append .headerField)
    (fun q => q.state = .headerField ∧ q.headerState.fieldIndex.isSome = true)
    (fun c => TOKEN c ≠ 0)
    (fun q c => q.amid .headerField (fieldStep (q.headerState, q.index) c)) ?_ ?_ ⟨hs, hh⟩ hname
    hnread x u
  · rintro q ⟨hs, -⟩
    rw [hs]
    exact ⟨rfl, fed_headerField⟩
  · rintro q c ⟨hs, hh⟩ hc
    refine ⟨⟨rfl, fieldStep_isSome _ c hh⟩, rfl, fun u => ?_⟩
    rw [hs, switch, headerField, if_pos hc, fieldChar_eq (q.count 1) c hh, Parser.amid, ← hs]
    rfl

theorem reads_colon {q : Parser} (hs : q.state = .headerField)
    (hnread : q.nread < HTTP_MAX_HEADER_SIZE) (u : U) :
    Reads strict f [0x3a] q u { q.count 1 with state := .headerValueStart } u := by
  apply reads_plain (by rw [hs]; rfl) hnread rfl
  rw [hs, switch, headerField, if_neg (by decide), if_pos rfl, feed_callback]
  rfl

/-! ### Values -/

/-- The white space in front of a value. -/
def isBlank (c : UInt8) : Bool := c == 0x20 || c == 0x09

theorem path_blanks {l : Bytes} (h : ∀ c ∈ l, isBlank c = true) :
    Path strict .headerValueStart l .headerValueStart := by
  induction l with
  | nil => exact .nil _
  | cons c l ih =>
    refine .cons ⟨rfl, rfl, fun q hs => ?_⟩ (ih fun d hd => h d (List.mem_cons_of_mem _ hd))
    have hc := h c List.mem_cons_self
    rw [switch, headerValueStart, if_pos (by simpa [isBlank] using hc), goto, ← hs]

/-- A further character of a number. Spaces are skipped. -/
def lengthStep (n : ℕ) (c : UInt8) : ℕ := if c = 0x20 then n else n * 10 + digit c

/-- The number that the text of a `Content-Length` stands for. -/
def lengthOf (text : Bytes) : ℕ := text.foldl lengthStep 0

/-- The text of a `Content-Length` that can be read. -/
structure IsLength (text : Bytes) : Prop where
  head : ∀ c ∈ text.head?, IS_NUM c = true
  digits : ∀ c ∈ text, IS_NUM c = true ∨ c = 0x20
  small : lengthOf text < 2 ^ 63

theorem isLength_iff (text : Bytes) : IsLength text ↔
    text.head?.all IS_NUM = true ∧ (text.all fun c => IS_NUM c || c == 0x20) = true ∧
      lengthOf text < 2 ^ 63 := by
  rw [Option.all_eq_true, List.all_eq_true]
  simp only [Bool.or_eq_true, beq_iff_eq]
  exact ⟨fun h => ⟨h.head, h.digits, h.small⟩, fun h => ⟨h.1, h.2.1, h.2.2⟩⟩

instance (text : Bytes) : Decidable (IsLength text) := decidable_of_iff' _ (isLength_iff text)

/-- What the text of a field does to the message while it is read. -/
def Message.text (m : Message) (field : HeaderState) (text : Bytes) : Message :=
  if text = [] then m
  else if field = .upgrade then { m with flags.upgrade := true }
  else if field = .contentLength then { m with contentLength := lengthOf text }
  else m

/-- What the word that a field says does to the message at the end of its line. -/
def Message.said (m : Message) : HeaderState → Message
  | .connectionKeepAlive => { m with flags.connectionKeepAlive := true }
  | .connectionClose => { m with flags.connectionClose := true }
  | .transferEncodingChunked => { m with flags.chunked := true }
  | _ => m

theorem Message.said_said (m : Message) (h : HeaderState) : m.said h.said = m.said h := by
  cases h <;> rfl

theorem reads_words (hf : f.Lawful overlap) {q : Parser} (hs : q.state = .headerValue)
    (hh : q.headerState.wordwise = true) {text : Bytes} (htext : ∀ c ∈ text, c ≠ CR ∧ c ≠ LF)
    (hnread : q.nread + text.length ≤ HTTP_MAX_HEADER_SIZE) (x : Bytes) (u : U) :
    Reads strict f text q (f.data .headerValue x u)
      ((q.count text.length).amid .headerValue (text.foldl valueStep (q.headerState, q.index)))
      (f.data .headerValue (x ++ text) u) := by
  rw [← foldl_amid valueStep hs]
  refine reads_piece (hf.append .headerValue)
    (fun q => q.state = .headerValue ∧ q.headerState.wordwise = true)
    (fun c => c ≠ CR ∧ c ≠ LF)
    (fun q c => q.amid .headerValue (valueStep (q.headerState, q.index) c)) ?_ ?_ ⟨hs, hh⟩ htext
    hnread x u
  · rintro q ⟨hs, -⟩
    rw [hs]
    exact ⟨rfl, fed_headerValue⟩
  · rintro q c ⟨hs, hh⟩ ⟨hcr, hlf⟩
    refine ⟨⟨rfl, valueStep_wordwise _ c hh⟩, rfl, fun u => ?_⟩
    rw [hs, switch, headerValue, if_neg hcr, if_neg hlf, valueChar_eq (q.count 1) c hh,
      Parser.amid, ← hs]
    rfl

theorem le_lengthStep (n : ℕ) (c : UInt8) : n ≤ lengthStep n c := by
  unfold lengthStep
  split_ifs
  · exact le_rfl
  · omega

theorem le_foldl_lengthStep (n : ℕ) (text : Bytes) : n ≤ text.foldl lengthStep n := by
  induction text generalizing n with
  | nil => exact le_rfl
  | cons c text ih => exact (le_lengthStep n c).trans (ih _)

theorem reads_length (hf : f.Lawful overlap) {q : Parser} {n : ℕ} (hs : q.state = .headerValue)
    (hh : q.headerState = .contentLength) (hn : q.contentLength = n) {text : Bytes}
    (htext : ∀ c ∈ text, IS_NUM c = true ∨ c = 0x20) (hsmall : text.foldl lengthStep n < 2 ^ 63)
    (hnread : q.nread + text.length ≤ HTTP_MAX_HEADER_SIZE) (x : Bytes) (u : U) :
    Reads strict f text q (f.data .headerValue x u)
      { q.count text.length with contentLength := (text.foldl lengthStep n : ℕ) }
      (f.data .headerValue (x ++ text) u) := by
  induction text generalizing q n x with
  | nil =>
    rw [List.append_nil, List.foldl_nil, ← hn]
    exact .nil
  | cons c text ih =>
    rw [List.length_cons] at hnread
    rw [List.foldl_cons] at hsmall ⊢
    have hstep := lt_of_le_of_lt (le_foldl_lengthStep (lengthStep n c) text) hsmall
    have hswitch : switch strict (q.count 1) c 1 q.state =
        .next { q.count 1 with contentLength := (lengthStep n c : ℕ) } := by
      have hcr : c ≠ CR := by
        rintro rfl
        rcases htext CR List.mem_cons_self with h | h
        · exact absurd h (by decide)
        · exact absurd h (by decide)
      have hlf : c ≠ LF := by
        rintro rfl
        rcases htext LF List.mem_cons_self with h | h
        · exact absurd h (by decide)
        · exact absurd h (by decide)
      rw [hs, switch, headerValue, if_neg hcr, if_neg hlf, valueChar]
      dsimp only [Parser.count]
      rw [hh]
      dsimp only
      unfold lengthStep at hstep ⊢
      by_cases hc : c = 0x20
      · rw [if_pos hc, if_pos hc, ← hn]
      · have hnum : IS_NUM c = true := (htext c List.mem_cons_self).resolve_right hc
        rw [if_neg hc] at hstep ⊢
        rw [if_neg hc, hnum, if_neg (by decide), addDigit]
        dsimp only
        rw [hn, if_neg (by push_cast at hstep ⊢; omega)]
        push_cast
        rfl
    have hbyte := reads_byte (f := f) (u := f.data .headerValue x u) (by rw [hs]; rfl)
      (by omega) (by rw [hswitch]; rfl)
    rw [show ({ q.count 1 with contentLength := (lengthStep n c : ℕ) } : Parser).state = q.state
      from rfl, hs, fed_headerValue, hf.append] at hbyte
    have hmore := ih (q := { q.count 1 with contentLength := (lengthStep n c : ℕ) }) hs hh rfl
      (fun c hc => htext c (List.mem_cons_of_mem _ hc)) hsmall
      (by show q.nread + 1 + text.length ≤ _; omega) (x ++ [c])
    have hread := hbyte.append hmore
    rw [List.append_assoc] at hread
    rw [List.length_cons, Nat.add_comm, ← Parser.count_count]
    exact hread

/-- The first character of a value that is not a length. -/
theorem valueStart_eq {q : Parser} (h : q.headerState ≠ .contentLength) {c : UInt8} {text : Bytes}
    (hne : text ≠ []) : valueStart q c = .next { q with
      toMessage := q.toMessage.text q.headerState.field text
      headerState := valueFirst q.headerState.field c } := by
  obtain ⟨m, s, headerState, index, nread⟩ := q
  unfold valueFirst valueStart Message.text
  cases headerState <;> first
    | exact absurd rfl h
    | (simp only [hne, HeaderState.field]; rfl)

theorem valueFirst_wordwise_of_ne {h : HeaderState} (hh : h ≠ .contentLength) (c : UInt8) :
    (valueFirst h.field c).wordwise = true := by
  unfold valueFirst valueStart
  cases h <;> first | rfl | exact absurd rfl hh | (dsimp only [HeaderState.field]; split_ifs <;> rfl)

theorem HeaderState.field_field (h : HeaderState) : h.field.field = h.field := by
  cases h <;> rfl

theorem HeaderState.eq_contentLength {h : HeaderState} (hh : h.field = .contentLength) :
    h = .contentLength := by
  cases h <;> first | rfl | cases hh

/-- The text of a value, which begins with no white space. -/
structure IsText (field : HeaderState) (text : Bytes) : Prop where
  head : ∀ c ∈ text.head?, isBlank c = false
  line : ∀ c ∈ text, c ≠ CR ∧ c ≠ LF
  length : field = .contentLength → text ≠ [] → IsLength text

theorem reads_text (hf : f.Lawful overlap) {q : Parser} (hs : q.state = .headerValueStart)
    {text : Bytes} (hne : text ≠ []) (htext : IsText q.headerState.field text)
    (hnread : q.nread + text.length ≤ HTTP_MAX_HEADER_SIZE) (u : U) :
    ∃ h : HeaderState × ℕ, h.1.said = sayingOf q.headerState.field text ∧
      Reads strict f text q u
        { (q.count text.length).amid .headerValue h with
          toMessage := q.toMessage.text q.headerState.field text }
        (f.data .headerValue text u) := by
  obtain ⟨c, rest, rfl⟩ := List.exists_cons_of_ne_nil hne
  have hblank := htext.head c rfl
  obtain ⟨hcr, hlf⟩ := htext.line c List.mem_cons_self
  have hrest : ∀ d ∈ rest, d ≠ CR ∧ d ≠ LF := fun d hd => htext.line d (List.mem_cons_of_mem _ hd)
  rw [List.length_cons] at hnread
  have hswitch : switch strict (q.count 1) c 1 q.state = .mark .headerValue
      (valueStart ((q.count 1).amid .headerValue (q.headerState, 0)) c) := by
    have hspace : ¬ (c = 0x20 ∨ c = 0x09) := by
      simpa [isBlank] using hblank
    rw [hs, switch, headerValueStart, if_neg hspace, if_neg hcr, if_neg hlf]
    rfl
  have hfirst : ∀ {q' : Parser}, q'.state = .headerValue →
      valueStart ((q.count 1).amid .headerValue (q.headerState, 0)) c = .next q' →
      Reads strict f [c] q u q' (f.data .headerValue [c] u) := by
    intro q' hs' hstart
    have hbyte := reads_byte (f := f) (u := u) (by rw [hs]; rfl) (by omega)
      (by rw [hswitch, hstart]; rfl)
    rw [hs', fed_headerValue, hf.append] at hbyte
    exact hbyte
  have hcount : q.count (c :: rest).length = (q.count 1).count rest.length := by
    rw [List.length_cons, Nat.add_comm, ← Parser.count_count]
  rw [hcount]
  by_cases hlength : q.headerState = .contentLength
  · have hfield : q.headerState.field = .contentLength := by rw [hlength]; rfl
    have hdigits := htext.length hfield hne
    have hnum : IS_NUM c = true := hdigits.head c rfl
    have hc : c ≠ 0x20 := by
      rintro rfl
      cases hblank
    have hstep : lengthStep 0 c = digit c := by
      rw [lengthStep, if_neg hc, Nat.zero_mul, Nat.zero_add]
    refine ⟨(.contentLength, 0), by simp [hfield, sayingOf, HeaderState.said], ?_⟩
    have hone : Reads strict f [c] q u
        { (q.count 1).amid .headerValue (q.headerState, 0) with contentLength := digit c }
        (f.data .headerValue [c] u) := by
      refine hfirst rfl ?_
      unfold valueStart
      dsimp only [Parser.amid]
      rw [hlength]
      dsimp only
      rw [hnum, if_neg (by decide)]
    have hmore := reads_length strict hf (q :=
      { (q.count 1).amid .headerValue (q.headerState, 0) with contentLength := digit c })
      (n := digit c) rfl hlength rfl (fun d hd => hdigits.digits d (List.mem_cons_of_mem _ hd))
      (by rw [← hstep]; exact hdigits.small) (by show q.nread + 1 + rest.length ≤ _; omega) [c] u
    have hread := hone.append hmore
    rw [← hlength]
    rw [hfield, Message.text, if_neg hne, if_neg HeaderState.noConfusion, if_pos rfl]
    rw [← hstep] at hread
    exact hread
  · refine ⟨rest.foldl valueStep (valueFirst q.headerState.field c, 0), ?_, ?_⟩
    · exact valueState_said q.headerState.field_field
        (fun h => hlength (HeaderState.eq_contentLength h)) (c :: rest)
    · have hone := hfirst rfl
        (valueStart_eq (q := (q.count 1).amid .headerValue (q.headerState, 0)) hlength hne)
      exact hone.append (reads_words strict hf rfl (valueFirst_wordwise_of_ne hlength c) hrest
        (by show q.nread + 1 + rest.length ≤ _; omega) [c] u)

/-! ### Lines -/

theorem headerAlmostDone_eq (q : Parser) : headerAlmostDone strict q LF =
    .next { q with toMessage := q.toMessage.said q.headerState, state := .headerValueLws } := by
  obtain ⟨m, s, headerState, index, nread⟩ := q
  unfold headerAlmostDone STRICT_CHECK
  rw [if_neg (by simp)]
  cases headerState <;> rfl

theorem reads_headerAlmostDone {q : Parser} (hs : q.state = .headerAlmostDone)
    (hnread : q.nread < HTTP_MAX_HEADER_SIZE) (u : U) :
    Reads strict f [LF] q u
      { q.count 1 with toMessage := q.toMessage.said q.headerState, state := .headerValueLws } u := by
  refine reads_plain (by rw [hs]; rfl) hnread rfl ?_
  rw [hs, switch, headerAlmostDone_eq strict]
  rfl

theorem reads_valueEnd {q : Parser} (hs : q.state = .headerValue)
    (hnread : q.nread + 2 ≤ HTTP_MAX_HEADER_SIZE) (u : U) :
    Reads strict f [CR, LF] q u
      { q.count 2 with toMessage := q.toMessage.said q.headerState, state := .headerValueLws } u := by
  have hcr : Reads strict f [CR] q u { q.count 1 with state := .headerAlmostDone } u := by
    refine reads_plain (by rw [hs]; rfl) (by omega) rfl ?_
    rw [hs, switch, headerValue, if_pos rfl, feed_callback]
    rfl
  exact hcr.append (reads_headerAlmostDone strict rfl (by show q.nread + 1 < _; omega) u)

/-- A value without a text. -/
theorem reads_noText {q : Parser} (hs : q.state = .headerValueStart)
    (hnread : q.nread + 2 ≤ HTTP_MAX_HEADER_SIZE) (u : U) :
    Reads strict f [CR, LF] q u ((q.count 2).amid .headerValueLws (.general, 0))
      (f.data .headerValue [] u) := by
  have hcr : Reads strict f [CR] q u ((q.count 1).amid .headerAlmostDone (.general, 0))
      (f.data .headerValue [] u) := by
    refine reads_plain (by rw [hs]; rfl) (by omega) rfl ?_
    rw [hs, switch, headerValueStart, if_neg (by decide), Act.feed]
    dsimp only
    rw [if_pos rfl, feed_callback]
    rfl
  exact hcr.append (reads_headerAlmostDone strict rfl (by show q.nread + 1 < _; omega) _)

structure HeaderLine where
  name : Bytes
  value : Bytes
  deriving DecidableEq

def HeaderLine.bytes (l : HeaderLine) : Bytes := l.name ++ 0x3a :: (l.value ++ [CR, LF])

/-- The value without the white space in front of it. -/
def HeaderLine.text (l : HeaderLine) : Bytes := l.value.dropWhile isBlank

structure HeaderLine.Valid (l : HeaderLine) : Prop where
  name_ne_nil : l.name ≠ []
  name_token : ∀ c ∈ l.name, TOKEN c ≠ 0
  name_head : ∀ c ∈ l.name.head?, c ≠ 0x20
  value_line : ∀ c ∈ l.value, c ≠ CR ∧ c ≠ LF
  length : fieldOf l.name = .contentLength → l.text ≠ [] → IsLength l.text

theorem HeaderLine.valid_iff (l : HeaderLine) : l.Valid ↔
    l.name ≠ [] ∧ (l.name.all fun c => TOKEN c != 0) = true ∧
      (l.name.head?.all fun c => c != 0x20) = true ∧
      (l.value.all fun c => c != CR && c != LF) = true ∧
      (fieldOf l.name = .contentLength → l.text ≠ [] → IsLength l.text) := by
  rw [Option.all_eq_true, List.all_eq_true, List.all_eq_true]
  simp only [Bool.and_eq_true, bne_iff_ne]
  exact ⟨fun h => ⟨h.name_ne_nil, h.name_token, h.name_head, h.value_line, h.length⟩,
    fun h => ⟨h.1, h.2.1, h.2.2.1, h.2.2.2.1, h.2.2.2.2⟩⟩

instance (l : HeaderLine) : Decidable l.Valid := decidable_of_iff' _ l.valid_iff

def Message.line (m : Message) (l : HeaderLine) : Message :=
  (m.text (fieldOf l.name) l.text).said (sayingOf (fieldOf l.name) l.text)

def hearLine (f : Feed UInt8 Mark Notification U) (u : U) (l : HeaderLine) : U :=
  f.data .headerValue l.text (f.data .headerField l.name u)

theorem sayingOf_nil (field : HeaderState) : sayingOf field [] = .general := by
  have hword : ∀ word : Bytes, word ≠ [] → (trimRight []).map LOWER ≠ word := fun word hne h =>
    hne h.symm
  simp [sayingOf, hword CHUNKED (by decide), hword KEEP_ALIVE (by decide),
    hword CLOSE (by decide)]

/-- The text of a value and the end of its line. -/
theorem reads_value (hf : f.Lawful overlap) {q : Parser} (hs : q.state = .headerValueStart)
    {text : Bytes} (htext : IsText q.headerState.field text)
    (hnread : q.nread + text.length + 2 ≤ HTTP_MAX_HEADER_SIZE) (u : U) :
    ∃ h : HeaderState × ℕ, Reads strict f (text ++ [CR, LF]) q u
      { (q.count (text.length + 2)).amid .headerValueLws h with
        toMessage := (q.toMessage.text q.headerState.field text).said
          (sayingOf q.headerState.field text) }
      (f.data .headerValue text u) := by
  by_cases hne : text = []
  · subst hne
    refine ⟨(.general, 0), ?_⟩
    rw [sayingOf_nil]
    exact reads_noText strict hs hnread u
  · obtain ⟨h, hsaying, hread⟩ := reads_text strict hf hs hne htext (by omega) u
    refine ⟨h, ?_⟩
    rw [← hsaying, Message.said_said, ← Parser.count_count]
    exact hread.append (reads_valueEnd strict rfl (by show q.nread + text.length + 2 ≤ _; omega) _)

theorem reads_name (hf : f.Lawful overlap) {q : Parser} (hs : q.state.beginsLine = true)
    {l : HeaderLine} (hl : l.Valid) (hnread : q.nread + l.name.length ≤ HTTP_MAX_HEADER_SIZE)
    (u : U) :
    Reads strict f l.name q u ((q.count l.name.length).amid .headerField (fieldState l.name))
      (f.data .headerField l.name u) := by
  obtain ⟨name, value⟩ := l
  obtain ⟨c, rest, rfl⟩ := List.exists_cons_of_ne_nil hl.name_ne_nil
  have hrest : ∀ d ∈ rest, TOKEN d ≠ 0 := fun d hd => hl.name_token d (List.mem_cons_of_mem _ hd)
  dsimp only at hnread ⊢
  rw [List.length_cons] at hnread
  have hone := reads_fieldStart strict hf hs (hl.name_token c List.mem_cons_self)
    (hl.name_head c rfl) (by omega) u
  have hmore := reads_field strict hf
    (q := (q.count 1).amid .headerField (fieldStart (TOKEN c), 0)) rfl (fieldStart_isSome _) hrest
    (by show q.nread + 1 + rest.length ≤ _; omega) [c] u
  rw [List.length_cons, Nat.add_comm, ← Parser.count_count]
  exact hone.append hmore

theorem HeaderLine.length_bytes (l : HeaderLine) :
    l.bytes.length = l.name.length + (1 + (l.value.length + 2)) := by
  simp only [bytes, List.length_append, List.length_cons, List.length_nil]
  omega

theorem HeaderLine.Valid.text {l : HeaderLine} (hl : l.Valid) :
    IsText (fieldOf l.name) l.text where
  head c hc := by
    have hhead := List.head?_dropWhile_not isBlank l.value
    rw [show l.value.dropWhile isBlank = l.text from rfl, hc] at hhead
    exact hhead
  line c hc := hl.value_line c ((List.dropWhile_sublist _).subset hc)
  length := hl.length

/-- Between the field and the text of a line. -/
def Parser.within (q : Parser) (l : HeaderLine) (n : ℕ) (s : State) : Parser :=
  (q.count (l.name.length + n)).amid s (fieldState l.name)

/-- Before a line of a header, or its end. -/
structure Between (q : Parser) (m : Message) (n : ℕ) : Prop where
  state : q.state.beginsLine = true
  message : q.toMessage = m
  nread : q.nread = n

/-- A line of a header is read, and its field and its text are handed on. -/
theorem reads_line (hf : f.Lawful overlap) {q : Parser} {m : Message} {n : ℕ} (hq : Between q m n)
    {l : HeaderLine} (hl : l.Valid) (hnread : n + l.bytes.length ≤ HTTP_MAX_HEADER_SIZE) (u : U) :
    ∃ q', Reads strict f l.bytes q u q' (hearLine f u l) ∧
      Between q' (m.line l) (n + l.bytes.length) := by
  obtain ⟨hs, rfl, rfl⟩ := hq
  generalize hblanks : l.value.takeWhile isBlank = blanks
  have hvalue : blanks ++ l.text = l.value := by
    rw [← hblanks]
    exact List.takeWhile_append_dropWhile
  have hlength : blanks.length + l.text.length = l.value.length := by
    rw [← hvalue, List.length_append]
  have hblank : ∀ c ∈ blanks, isBlank c = true := by
    rw [← hblanks]
    exact fun c hc => List.mem_takeWhile_imp hc
  rw [l.length_bytes] at hnread
  have hname : Reads strict f l.name q u (q.within l 0 .headerField)
      (f.data .headerField l.name u) := reads_name strict hf hs hl (by omega) u
  have hcolon : Reads strict f [0x3a] (q.within l 0 .headerField) (f.data .headerField l.name u)
      (q.within l 1 .headerValueStart) (f.data .headerField l.name u) :=
    reads_colon strict rfl (by show q.nread + l.name.length < _; omega) _
  have hskip : Reads strict f blanks (q.within l 1 .headerValueStart)
      (f.data .headerField l.name u) (q.within l (1 + blanks.length) .headerValueStart)
      (f.data .headerField l.name u) := by
    have hpath := (path_blanks strict hblank).reads (f := f)
      (q := q.within l 1 .headerValueStart) rfl
      (by show q.nread + (l.name.length + 1) + _ ≤ _; omega) (f.data .headerField l.name u)
    have hcount : q.within l (1 + blanks.length) .headerValueStart =
        (q.within l 1 .headerValueStart).count blanks.length := by
      simp only [Parser.within, Parser.amid, Parser.count, Nat.add_assoc]
    rw [hcount]
    exact hpath
  obtain ⟨h, htext⟩ := reads_value strict hf
    (q := q.within l (1 + blanks.length) .headerValueStart) rfl
    (by
      show IsText (fieldState l.name).1.field l.text
      rw [fieldState_field hl.name_ne_nil]
      exact hl.text)
    (by show q.nread + (l.name.length + (1 + blanks.length)) + l.text.length + 2 ≤ _; omega)
    (f.data .headerField l.name u)
  have hread := hname.append (hcolon.append (hskip.append htext))
  have hbytes : l.name ++ ([0x3a] ++ (blanks ++ (l.text ++ [CR, LF]))) = l.bytes := by
    rw [HeaderLine.bytes, ← hvalue, List.append_assoc]
    rfl
  have hcount : q.nread + (l.name.length + (1 + blanks.length)) + (l.text.length + 2) =
      q.nread + l.bytes.length := by
    rw [l.length_bytes]
    omega
  rw [hbytes] at hread
  simp only [Parser.within, Parser.amid, Parser.count, fieldState_field hl.name_ne_nil, hcount]
    at hread
  exact ⟨_, hread, rfl, rfl, rfl⟩

/-- The lines of a header are read one by one. -/
theorem reads_lines (hf : f.Lawful overlap) {q : Parser} {m : Message} {n : ℕ} (hq : Between q m n)
    {lines : List HeaderLine} (hlines : ∀ l ∈ lines, l.Valid)
    (hnread : n + (lines.flatMap HeaderLine.bytes).length ≤ HTTP_MAX_HEADER_SIZE) (u : U) :
    ∃ q', Reads strict f (lines.flatMap HeaderLine.bytes) q u q' (lines.foldl (hearLine f) u) ∧
      Between q' (lines.foldl Message.line m)
        (n + (lines.flatMap HeaderLine.bytes).length) := by
  induction lines generalizing q m n u with
  | nil => exact ⟨q, .nil, hq⟩
  | cons l lines ih =>
    rw [List.flatMap_cons, List.length_append] at hnread ⊢
    obtain ⟨q₁, hone, hq₁⟩ := reads_line strict hf hq (hlines l List.mem_cons_self)
      (by omega) u
    obtain ⟨q', hmore, hq'⟩ := ih hq₁ (fun l hl => hlines l (List.mem_cons_of_mem _ hl)) (by omega)
      (hearLine f u l)
    rw [Nat.add_assoc] at hq'
    exact ⟨q', hone.append hmore, hq'⟩

end NodeJS.HttpParser
