import NodeJS.HttpParser.Segments

/-! The invariant of `http_parser_execute`: why none of its assertions fails, and why its variables
fit the fields they are saved in. -/
namespace NodeJS.HttpParser
open Lib.Marks (Act Machine Client Outcome)

/-- How far `index` can have come in a field; `none` for the states that a value is in. -/
def HeaderState.fieldIndex : HeaderState → Option ℕ
  | .general | .connection | .contentLength | .transferEncoding | .upgrade => some 18
  | .C => some 0
  | .CO => some 1
  | .CON => some 2
  | .matchingConnection => some CONNECTION.length
  | .matchingProxyConnection => some PROXY_CONNECTION.length
  | .matchingContentLength => some CONTENT_LENGTH.length
  | .matchingTransferEncoding => some TRANSFER_ENCODING.length
  | .matchingUpgrade => some UPGRADE.length
  | _ => none

/-- How far `index` can have come in a value. -/
def HeaderState.valueIndex : HeaderState → Option ℕ
  | .connection | .transferEncoding => none
  | .matchingTransferEncodingChunked => some CHUNKED.length
  | .matchingConnectionKeepAlive => some KEEP_ALIVE.length
  | .matchingConnectionClose => some CLOSE.length
  | _ => some 18

def Bounded (index : ℕ) (bound : Option ℕ) : Prop := ∃ n, bound = some n ∧ index ≤ n

/-- What a state says about the variables; `nread` is the number of header bytes since the last
header, or chunk size, was read. -/
def Parser.Local (q : Parser) (nread : ℕ) : State → Prop
  | .reqMethod => q.index ≤ 12
  | .headerField => Bounded q.index q.headerState.fieldIndex
  | .headerValue => Bounded q.index q.headerState.valueIndex
  | .chunkSizeStart => q.flags.chunked = true ∧ q.nread = nread
  | .chunkData | .chunkDataAlmostDone | .chunkDataDone => q.flags.chunked = true ∧ q.nread = 0
  | .chunkSize | .chunkParameters | .chunkSizeAlmostDone => q.flags.chunked = true
  | _ => True

/-- A parser between two bytes. -/
structure Parser.Sound (q : Parser) : Prop where
  nread : q.nread ≤ HTTP_MAX_HEADER_SIZE
  index : q.index < 2 ^ 8
  «local» : q.Local 0 q.state

theorem Parser.sound_iff {q : Parser} :
    q.Sound ↔ q.nread ≤ HTTP_MAX_HEADER_SIZE ∧ q.index < 2 ^ 8 ∧ q.Local 0 q.state :=
  ⟨fun h => ⟨h.nread, h.index, h.local⟩, fun h => ⟨h.1, h.2.1, h.2.2⟩⟩

/-- A step that goes on with a sound parser, and does not stop at an assertion. -/
abbrev Keeps (act : Step) : Prop := act.Ensures Parser.Sound (· ≠ .assertion)

section
variable {q : Parser}

@[simp] theorem keeps_ite {p : Prop} [Decidable p] {a b : Step} :
    Keeps (if p then a else b) ↔ (p → Keeps a) ∧ (¬ p → Keeps b) := by
  split_ifs with h
  · simp [h]
  · simp [h]

@[simp] theorem keeps_error : Keeps (error q) := Stop.noConfusion

@[simp] theorem keeps_undefined : Keeps (.stop .undefined) := Stop.noConfusion

theorem keeps_returned {m : Message} : Keeps (.stop (.returned m)) := Stop.noConfusion

@[simp] theorem keeps_next : Keeps (.next q) ↔ q.Sound := Iff.rfl

@[simp] theorem keeps_goto {s : State} : Keeps (goto q s) ↔ Parser.Sound { q with state := s } :=
  Iff.rfl

@[simp] theorem keeps_mark {k : Mark} {rest : Step} : Keeps (.mark k rest) ↔ Keeps rest := Iff.rfl

@[simp] theorem keeps_take {n : ℕ} {rest : Step} : Keeps (.take n rest) ↔ Keeps rest := Iff.rfl

theorem keeps_callback {ks : List Mark} {rest : Step} (h : Keeps rest) :
    Keeps (CALLBACK ks q rest) := by
  induction ks with
  | nil => exact h
  | cons k ks ih =>
    intro r
    dsimp only
    split_ifs
    · exact keeps_returned
    · exact ih

theorem keeps_callback2 {n : Message → Notification} {rest : Step} (h : Keeps rest) :
    Keeps (CALLBACK2 n q rest) := by
  intro r
  dsimp only
  split_ifs
  · exact keeps_returned
  · exact h

theorem keeps_strict {strict : Bool} {p : Prop} [Decidable p] {rest : Step} (h : Keeps rest) :
    Keeps (STRICT_CHECK strict p q rest) := by
  unfold STRICT_CHECK
  split_ifs
  · exact keeps_error
  · exact h

end

structure Parser.Fits (q : Parser) : Prop where
  nread : q.nread ≤ HTTP_MAX_HEADER_SIZE
  index : q.index < 2 ^ 8

theorem keeps_next_of {q : Parser} {s : State} (h : q.Fits) (hs : q.state = s)
    (hlocal : q.Local 0 s) : Keeps (.next q) := ⟨h.nread, h.index, by rwa [hs]⟩

theorem keeps_goto_of {q : Parser} {s : State} (h : q.Fits)
    (hlocal : Parser.Local { q with state := s } 0 s) : Keeps (goto q s) :=
  ⟨h.nread, h.index, hlocal⟩

theorem newMessage_local (strict : Bool) (q : Parser) (n : ℕ) :
    q.Local n (NEW_MESSAGE strict q) := by
  unfold NEW_MESSAGE
  split_ifs <;> trivial

theorem messageComplete_keeps (strict : Bool) {q : Parser} (h : q.Fits) :
    Keeps (messageComplete strict q) :=
  keeps_callback2 (keeps_goto_of h (newMessage_local strict { q with state := _ } 0))

theorem messageBegin_keeps {q : Parser} {rest : Parser → Step}
    (h : Keeps (rest { q with flags := .none, contentLength := -1 })) :
    Keeps (messageBegin q rest) := keeps_callback2 h

theorem startReqMethodAssign_keeps {q : Parser} (h : q.Fits) (ch : UInt8) :
    Keeps (startReqMethodAssign q ch) := by
  unfold startReqMethodAssign
  cases methodOf ch with
  | none => exact keeps_error
  | some m => exact ⟨h.nread, by show 1 < 2 ^ 8; decide, by show 1 ≤ 12; decide⟩

theorem methodStrings_length (m : Method) : (methodStrings m).length ≤ 11 := by
  cases m <;> decide

/-- The names are short enough for `index`, which is checked against the end of the name at
hand. -/
theorem reqMethod_keeps {q : Parser} (h : q.Fits) (hs : q.state = .reqMethod) (ch : UInt8) :
    Keeps (reqMethod q ch) := by
  have hlength := methodStrings_length q.method
  have hnext : ¬ (methodStrings q.method).length < q.index → ∀ m,
      Keeps (.next { q with method := m, index := q.index + 1 }) := by
    intro hle m
    refine ⟨h.nread, ?_, ?_⟩
    · show q.index + 1 < 2 ^ 8
      omega
    · show Parser.Local _ 0 q.state
      rw [hs]
      show q.index + 1 ≤ 12
      omega
  unfold reqMethod
  dsimp only
  split_ifs with hnul hend
  · exact keeps_error
  · exact keeps_undefined
  · exact ⟨h.nread, by show q.index + 1 < 2 ^ 8; omega, trivial⟩
  · exact hnext hend q.method
  · cases otherMethod q.method q.index ch with
    | none => exact keeps_error
    | some m => exact hnext hend m

theorem fieldStart_index (c : UInt8) : Bounded 0 (fieldStart c).fieldIndex := by
  unfold fieldStart
  split_ifs
  any_goals exact ⟨_, rfl, Nat.zero_le _⟩

theorem headersComplete_keeps (strict : Bool) {q : Parser} (h : q.Fits) (hnread : q.nread = 0) :
    Keeps (headersComplete strict q) := by
  unfold headersComplete
  split_ifs with hupgrade hskip hchunked
  · exact keeps_callback2 keeps_returned
  · exact messageComplete_keeps strict h
  · exact keeps_goto_of h ⟨hchunked, hnread⟩
  · exact messageComplete_keeps strict h
  · exact keeps_goto_of h trivial
  · exact messageComplete_keeps strict h
  · exact keeps_goto_of h trivial

theorem headersAlmostDone_keeps (strict : Bool) {q : Parser} (h : q.Fits) (ch : UInt8) :
    Keeps (headersAlmostDone strict q ch) := by
  have hfits : ∀ m : Message, Parser.Fits { q with toMessage := m, nread := 0 } := fun m =>
    ⟨Nat.zero_le _, h.index⟩
  unfold headersAlmostDone
  apply keeps_strict
  rw [keeps_ite]
  refine ⟨fun _ => messageComplete_keeps strict h, fun _ r => ?_⟩
  dsimp only
  split_ifs
  · exact headersComplete_keeps strict (hfits _) rfl
  · exact headersComplete_keeps strict (hfits _) rfl
  · exact Stop.noConfusion

theorem headerFieldStart_keeps (strict : Bool) {q : Parser} (h : q.Fits) (ch : UInt8) :
    Keeps (headerFieldStart strict q ch) := by
  have hfits : Parser.Fits { q with state := .headersAlmostDone } := ⟨h.nread, h.index⟩
  unfold headerFieldStart
  dsimp only
  split_ifs
  · exact keeps_goto_of h trivial
  · exact headersAlmostDone_keeps strict hfits ch
  · exact keeps_error
  · exact ⟨h.nread, by show 0 < 2 ^ 8; decide, fieldStart_index _⟩

/-- A further character in a field. -/
theorem sound_field {q : Parser} (h : q.Fits) (hs : q.state = .headerField) {index : ℕ}
    {headerState : HeaderState} (hindex : Bounded index headerState.fieldIndex)
    (hle : index ≤ 18) : Parser.Sound { q with index, headerState } := by
  refine ⟨h.nread, ?_, ?_⟩
  · show index < 2 ^ 8
    omega
  · show Parser.Local _ 0 q.state
    rw [hs]
    exact hindex

theorem matching_field {name : Bytes} {done : HeaderState} {q : Parser} (h : q.Fits)
    (hs : q.state = .headerField) (hmatching : q.headerState.fieldIndex = some name.length)
    (hdone : done.fieldIndex = some 18) (hlength : name.length ≤ 17)
    (hindex : q.index ≤ name.length) (c : UInt8) : (matching name done q c).Sound := by
  refine sound_field h hs ?_ (by omega)
  split_ifs with hgeneral hlast
  · exact ⟨18, rfl, by omega⟩
  · exact ⟨18, hdone, by omega⟩
  · exact ⟨_, hmatching, by omega⟩

/-- The switch over `header_state` in a field has a case for each state that a field is in. -/
theorem fieldChar_sound {q : Parser} (h : q.Fits) (hs : q.state = .headerField)
    (hindex : Bounded q.index q.headerState.fieldIndex) (c ch : UInt8) :
    ∃ q', fieldChar q c ch = some q' ∧ q'.Sound := by
  have hsame : q.Sound := ⟨h.nread, h.index, by rw [hs]; exact hindex⟩
  obtain ⟨n, hn, hle⟩ := hindex
  have hspace : n = 18 →
      Parser.Sound (if ch ≠ 0x20 then { q with headerState := .general } else q) := by
    rintro rfl
    split_ifs
    · exact sound_field h hs ⟨18, rfl, hle⟩ hle
    · exact hsame
  have hname : ∀ {name : Bytes} {done : HeaderState}, q.headerState.fieldIndex = some name.length →
      done.fieldIndex = some 18 → name.length ≤ 17 → (matching name done q c).Sound := by
    intro name done hmatching hdone hlength
    refine matching_field h hs hmatching hdone hlength ?_ c
    rw [hmatching] at hn
    obtain rfl := Option.some.inj hn
    exact hle
  unfold fieldChar
  dsimp only
  cases hh : q.headerState with
  | general => exact ⟨q, rfl, hsame⟩
  | C =>
    rw [hh] at hn
    cases hn
    refine ⟨_, rfl, sound_field h hs ?_ (by omega)⟩
    split_ifs
    · exact ⟨1, rfl, by omega⟩
    · exact ⟨18, rfl, by omega⟩
  | CO =>
    rw [hh] at hn
    cases hn
    refine ⟨_, rfl, sound_field h hs ?_ (by omega)⟩
    split_ifs
    · exact ⟨2, rfl, by omega⟩
    · exact ⟨18, rfl, by omega⟩
  | CON =>
    rw [hh] at hn
    cases hn
    have hconnection : CONNECTION.length = 10 := by decide
    have hcontentLength : CONTENT_LENGTH.length = 14 := by decide
    refine ⟨_, rfl, sound_field h hs ?_ (by omega)⟩
    split_ifs
    · exact ⟨_, rfl, by omega⟩
    · exact ⟨_, rfl, by omega⟩
    · exact ⟨18, rfl, by omega⟩
  | matchingConnection => exact ⟨_, rfl, hname (by rw [hh]; rfl) rfl (by decide)⟩
  | matchingProxyConnection => exact ⟨_, rfl, hname (by rw [hh]; rfl) rfl (by decide)⟩
  | matchingContentLength => exact ⟨_, rfl, hname (by rw [hh]; rfl) rfl (by decide)⟩
  | matchingTransferEncoding => exact ⟨_, rfl, hname (by rw [hh]; rfl) rfl (by decide)⟩
  | matchingUpgrade => exact ⟨_, rfl, hname (by rw [hh]; rfl) rfl (by decide)⟩
  | connection => exact ⟨_, rfl, hspace (by rw [hh] at hn; exact (Option.some.inj hn).symm)⟩
  | contentLength => exact ⟨_, rfl, hspace (by rw [hh] at hn; exact (Option.some.inj hn).symm)⟩
  | transferEncoding => exact ⟨_, rfl, hspace (by rw [hh] at hn; exact (Option.some.inj hn).symm)⟩
  | upgrade => exact ⟨_, rfl, hspace (by rw [hh] at hn; exact (Option.some.inj hn).symm)⟩
  | _ =>
    rw [hh] at hn
    cases hn

theorem headerField_keeps {q : Parser} (h : q.Fits) (hs : q.state = .headerField)
    (hindex : Bounded q.index q.headerState.fieldIndex) (ch : UInt8) : Keeps (headerField q ch) := by
  obtain ⟨q', hq', hsound⟩ := fieldChar_sound h hs hindex (TOKEN ch) ch
  unfold headerField
  dsimp only
  rw [hq']
  split_ifs
  · exact hsound
  · exact keeps_callback (keeps_goto_of h trivial)
  · exact keeps_callback (keeps_goto_of h trivial)
  · exact keeps_callback (keeps_goto_of h trivial)
  · exact keeps_error

/-- A further character in a value. -/
theorem sound_value {q : Parser} (h : q.Fits) (hs : q.state = .headerValue) {m : Message}
    {headerState : HeaderState} {index : ℕ} (hindex : Bounded index headerState.valueIndex)
    (hle : index ≤ 18) : Parser.Sound { q with toMessage := m, headerState, index } := by
  refine ⟨h.nread, ?_, ?_⟩
  · show index < 2 ^ 8
    omega
  · show Parser.Local _ 0 q.state
    rw [hs]
    exact hindex

theorem valueStart_keeps {q : Parser} (h : q.Fits) (hs : q.state = .headerValue)
    (hindex : q.index = 0) (ch : UInt8) : Keeps (valueStart q ch) := by
  have hzero : ∀ (m : Message) {headerState : HeaderState} {n : ℕ},
      headerState.valueIndex = some n →
        Parser.Sound { q with toMessage := m, headerState } := by
    intro m headerState n hn
    exact sound_value h hs ⟨n, hn, by omega⟩ (by omega)
  unfold valueStart
  dsimp only
  cases hh : q.headerState with
  | transferEncoding =>
    show Parser.Sound _
    split_ifs
    · exact hzero _ rfl
    · exact hzero _ rfl
  | connection =>
    show Parser.Sound _
    split_ifs
    · exact hzero _ rfl
    · exact hzero _ rfl
    · exact hzero _ rfl
  | contentLength =>
    rw [keeps_ite]
    exact ⟨fun _ => keeps_error, fun _ => hzero _ rfl⟩
  | _ => exact hzero _ rfl

theorem headerValueStart_keeps {q : Parser} (h : q.Fits) (hs : q.state = .headerValueStart)
    (ch : UInt8) : Keeps (headerValueStart q ch) := by
  have hfits : Parser.Fits { q with state := .headerValue, index := 0 } :=
    ⟨h.nread, by show 0 < 2 ^ 8; decide⟩
  unfold headerValueStart
  rw [keeps_ite]
  refine ⟨fun _ => keeps_next_of h hs trivial, fun _ => ?_⟩
  rw [keeps_mark]
  dsimp only
  split_ifs
  · exact keeps_callback ⟨h.nread, hfits.index, trivial⟩
  · exact keeps_callback (keeps_goto_of hfits trivial)
  · exact valueStart_keeps hfits rfl rfl ch

theorem matching_value {name : Bytes} {done : HeaderState} {q : Parser} (h : q.Fits)
    (hs : q.state = .headerValue) (hmatching : q.headerState.valueIndex = some name.length)
    (hdone : done.valueIndex = some 18) (hlength : name.length ≤ 17)
    (hindex : q.index ≤ name.length) (c : UInt8) : (matching name done q c).Sound := by
  refine sound_value (m := q.toMessage) h hs ?_ (by omega)
  split_ifs with hgeneral hlast
  · exact ⟨18, rfl, by omega⟩
  · exact ⟨18, hdone, by omega⟩
  · exact ⟨_, hmatching, by omega⟩

theorem valueChar_keeps {q : Parser} (h : q.Fits) (hs : q.state = .headerValue)
    (hindex : Bounded q.index q.headerState.valueIndex) (ch : UInt8) : Keeps (valueChar q ch) := by
  have hsame : q.Sound := ⟨h.nread, h.index, by rw [hs]; exact hindex⟩
  obtain ⟨n, hn, hle⟩ := hindex
  have hgeneral : n ≤ 18 → Parser.Sound { q with headerState := .general } := fun hn18 =>
    sound_value h hs ⟨18, rfl, by omega⟩ (by omega)
  have hspace : n ≤ 18 → Parser.Sound (if ch ≠ 0x20 then { q with headerState := .general } else q) := by
    intro hn18
    split_ifs
    · exact hgeneral hn18
    · exact hsame
  have hname : ∀ {name : Bytes} {done : HeaderState}, q.headerState.valueIndex = some name.length →
      done.valueIndex = some 18 → name.length ≤ 17 → (matching name done q (LOWER ch)).Sound := by
    intro name done hmatching hdone hlength
    refine matching_value h hs hmatching hdone hlength ?_ _
    rw [hmatching] at hn
    obtain rfl := Option.some.inj hn
    exact hle
  unfold valueChar
  dsimp only
  cases hh : q.headerState with
  | general => exact hsame
  | connection =>
    rw [hh] at hn
    cases hn
  | transferEncoding =>
    rw [hh] at hn
    cases hn
  | contentLength =>
    rw [hh] at hn
    cases hn
    rw [keeps_ite, keeps_ite]
    refine ⟨fun _ => hsame, fun _ => ⟨fun _ => keeps_error, fun _ => ?_⟩⟩
    unfold addDigit
    dsimp only
    rw [keeps_ite]
    refine ⟨fun _ => keeps_undefined, fun _ => sound_value h hs ⟨18, ?_, hle⟩ hle⟩
    rw [hh]
    rfl
  | matchingTransferEncodingChunked => exact hname (by rw [hh]; rfl) rfl (by decide)
  | matchingConnectionKeepAlive => exact hname (by rw [hh]; rfl) rfl (by decide)
  | matchingConnectionClose => exact hname (by rw [hh]; rfl) rfl (by decide)
  | transferEncodingChunked =>
    rw [hh] at hn
    cases hn
    exact hspace (le_refl _)
  | connectionKeepAlive =>
    rw [hh] at hn
    cases hn
    exact hspace (le_refl _)
  | connectionClose =>
    rw [hh] at hn
    cases hn
    exact hspace (le_refl _)
  | _ =>
    rw [hh] at hn
    cases hn
    exact ⟨h.nread, h.index, 18, rfl, hle⟩

theorem headerAlmostDone_keeps (strict : Bool) {q : Parser} (h : q.Fits) (ch : UInt8) :
    Keeps (headerAlmostDone strict q ch) := by
  unfold headerAlmostDone
  apply keeps_strict
  dsimp only
  split <;> exact ⟨h.nread, h.index, trivial⟩

theorem headerValue_keeps (strict : Bool) {q : Parser} (h : q.Fits) (hs : q.state = .headerValue)
    (hindex : Bounded q.index q.headerState.valueIndex) (ch : UInt8) :
    Keeps (headerValue strict q ch) := by
  unfold headerValue
  split_ifs
  · exact keeps_callback (keeps_goto_of h trivial)
  · exact keeps_callback (headerAlmostDone_keeps strict h ch)
  · exact valueChar_keeps h hs hindex ch

theorem assertChunked_keeps {q : Parser} {rest : Step} (hchunked : q.flags.chunked = true)
    (h : Keeps rest) : Keeps (assertChunked q rest) := by
  rwa [assertChunked, if_pos hchunked]

theorem chunkSizeStart_keeps {q : Parser} (h : q.Fits) (hchunked : q.flags.chunked = true)
    (hnread : q.nread = 1) (ch : UInt8) : Keeps (chunkSizeStart q ch) := by
  rw [chunkSizeStart, if_neg (not_not_intro hnread)]
  apply assertChunked_keeps hchunked
  rw [keeps_ite]
  exact ⟨fun _ => keeps_error, fun _ => ⟨h.nread, h.index, hchunked⟩⟩

theorem chunkSize_keeps {q : Parser} (h : q.Fits) (hs : q.state = .chunkSize)
    (hchunked : q.flags.chunked = true) (ch : UInt8) : Keeps (chunkSize q ch) := by
  unfold chunkSize addDigit
  apply assertChunked_keeps hchunked
  dsimp only
  split_ifs
  · exact keeps_goto_of h hchunked
  · exact keeps_goto_of h hchunked
  · exact keeps_error
  · exact keeps_undefined
  · exact ⟨h.nread, h.index, by rw [hs]; exact hchunked⟩

theorem chunkSizeAlmostDone_keeps (strict : Bool) {q : Parser} (h : q.Fits)
    (hchunked : q.flags.chunked = true) (ch : UInt8) : Keeps (chunkSizeAlmostDone strict q ch) := by
  unfold chunkSizeAlmostDone
  apply assertChunked_keeps hchunked
  apply keeps_strict
  dsimp only
  split_ifs
  · exact ⟨Nat.zero_le _, h.index, trivial⟩
  · exact ⟨Nat.zero_le _, h.index, hchunked, rfl⟩

theorem chunkData_keeps {q : Parser} (h : q.Fits) (hs : q.state = .chunkData)
    (hchunked : q.flags.chunked = true) (hnread : q.nread = 0) (left : ℕ) :
    Keeps (chunkData q left) := by
  unfold chunkData
  apply assertChunked_keeps hchunked
  dsimp only
  have hrest : Parser.Sound { q with
      state := if min (left : ℤ) q.contentLength = q.contentLength then .chunkDataAlmostDone
        else q.state
      contentLength := q.contentLength - min (left : ℤ) q.contentLength } := by
    refine ⟨h.nread, h.index, ?_⟩
    dsimp only
    split_ifs
    · exact ⟨hchunked, hnread⟩
    · rw [hs]
      exact ⟨hchunked, hnread⟩
  rw [keeps_ite]
  exact ⟨fun _ => hrest, fun _ => hrest⟩

theorem bodyIdentity_keeps (strict : Bool) {q : Parser} (h : q.Fits) (hs : q.state = .bodyIdentity)
    (left : ℕ) : Keeps (bodyIdentity strict q left) := by
  have hsame : ∀ contentLength : ℤ, Parser.Sound { q with contentLength } := fun _ =>
    ⟨h.nread, h.index, by rw [hs]; trivial⟩
  unfold bodyIdentity
  dsimp only
  rw [keeps_ite]
  refine ⟨fun _ => ?_, fun _ => hsame q.contentLength⟩
  rw [keeps_take, keeps_ite]
  exact ⟨fun _ => messageComplete_keeps strict ⟨h.nread, h.index⟩, fun _ => hsame _⟩

/-- One byte in, with the byte counted. -/
theorem switch_keeps (strict : Bool) {q : Parser} (h : q.Fits) (hlocal : q.Local 1 q.state)
    (ch : UInt8) (left : ℕ) : Keeps (switch strict q ch left q.state) := by
  have hbegin : Parser.Fits { q with flags := .none, contentLength := -1 } := ⟨h.nread, h.index⟩
  have hindex : q.index < 256 := h.index
  cases hs : q.state with
  | startReqOrRes =>
    rw [switch, keeps_ite]
    refine ⟨fun _ => keeps_next_of h hs trivial, fun _ => messageBegin_keeps ?_⟩
    rw [keeps_ite]
    refine ⟨fun _ => keeps_goto_of hbegin trivial, fun _ => ?_⟩
    apply startReqMethodAssign_keeps
    exact ⟨h.nread, h.index⟩
  | resOrRespH =>
    rw [switch]
    split_ifs
    · exact ⟨h.nread, h.index, trivial⟩
    · exact keeps_error
    · exact ⟨h.nread, by show 2 < 2 ^ 8; decide, by show 2 ≤ 12; decide⟩
  | startRes =>
    rw [switch]
    apply messageBegin_keeps
    split_ifs
    · exact keeps_goto_of hbegin trivial
    · exact keeps_next_of hbegin hs trivial
    · exact keeps_error
  | startReq =>
    rw [switch, keeps_ite]
    refine ⟨fun _ => keeps_next_of h hs trivial, fun _ => messageBegin_keeps ?_⟩
    rw [keeps_ite]
    exact ⟨fun _ => keeps_error, fun _ => startReqMethodAssign_keeps hbegin ch⟩
  | reqMethod => exact reqMethod_keeps h hs ch
  | reqSpacesBeforeUrl =>
    rw [switch, reqSpacesBeforeUrl]
    split_ifs
    · exact keeps_next_of h hs trivial
    · exact keeps_goto_of h trivial
    · exact keeps_goto_of h trivial
    · exact keeps_goto_of h trivial
    · exact keeps_error
  | headerFieldStart => exact headerFieldStart_keeps strict h ch
  | headerField =>
    rw [hs] at hlocal
    exact headerField_keeps h hs hlocal ch
  | headerValueStart => exact headerValueStart_keeps h hs ch
  | headerValue =>
    rw [hs] at hlocal
    exact headerValue_keeps strict h hs hlocal ch
  | headerValueLws =>
    rw [switch, headerValueLws]
    split_ifs
    · exact keeps_goto_of h trivial
    · apply headerFieldStart_keeps
      exact ⟨h.nread, h.index⟩
  | headerAlmostDone => exact headerAlmostDone_keeps strict h ch
  | headersAlmostDone => exact headersAlmostDone_keeps strict h ch
  | chunkSizeStart =>
    rw [hs] at hlocal
    exact chunkSizeStart_keeps h hlocal.1 hlocal.2 ch
  | chunkSize =>
    rw [hs] at hlocal
    exact chunkSize_keeps h hs hlocal ch
  | chunkParameters =>
    rw [hs] at hlocal
    rw [switch]
    apply assertChunked_keeps hlocal
    rw [keeps_ite]
    exact ⟨fun _ => keeps_goto_of h hlocal, fun _ => keeps_next_of h hs hlocal⟩
  | chunkSizeAlmostDone =>
    rw [hs] at hlocal
    exact chunkSizeAlmostDone_keeps strict h hlocal ch
  | chunkData =>
    rw [hs] at hlocal
    exact chunkData_keeps h hs hlocal.1 hlocal.2 left
  | chunkDataAlmostDone =>
    rw [hs] at hlocal
    exact assertChunked_keeps hlocal.1 (keeps_strict (keeps_goto_of h hlocal))
  | chunkDataDone =>
    rw [hs] at hlocal
    exact assertChunked_keeps hlocal.1 (keeps_strict (keeps_goto_of h hlocal))
  | bodyIdentity => exact bodyIdentity_keeps strict h hs left
  | bodyIdentityEof => exact keeps_next_of h hs trivial
  | resH | resHT | resHTT | resHTTP | resLineAlmostDone | reqSchemaSlash | reqSchemaSlashSlash
  | reqHttpH | reqHttpHT | reqHttpHTT | reqHttpHTTP =>
    exact keeps_strict (keeps_goto_of h trivial)
  | _ =>
    simp [switch, reqSchema, reqHost, reqPort, endHost, reqPath, reqQueryString,
      reqQueryStringStart, reqFragment, reqFragmentStart, endUrl, firstHttpMajor, httpMajor,
      firstHttpMinor, httpMinor, firstStatusCode, resStatusCode, Parser.sound_iff, h.nread,
      hindex, hs, Parser.Local, keeps_callback]

theorem Parser.Local.count {q : Parser} {s : State} (h : q.Local 0 s)
    (hs : s.parsingHeader = true) : Parser.Local { q with nread := q.nread + 1 } 1 s := by
  cases s with
  | chunkSizeStart => exact ⟨h.1, congrArg Nat.succ h.2⟩
  | chunkData => cases hs
  | chunkDataAlmostDone => cases hs
  | chunkDataDone => cases hs
  | _ => exact h

theorem Parser.Local.body {q : Parser} {s : State} (h : q.Local 0 s)
    (hs : s.parsingHeader = false) : q.Local 1 s := by
  cases s with
  | chunkSizeStart => cases hs
  | _ => exact h

theorem execByte_keeps (strict : Bool) (q : Parser) (ch : UInt8) (left : ℕ) (h : q.Sound) :
    Keeps (execByte strict q ch left) := by
  unfold execByte
  dsimp only
  split_ifs with hheader hmax
  · exact keeps_error
  · have hfits : Parser.Fits { q with nread := q.nread + 1 } := ⟨Nat.not_lt.mp hmax, h.index⟩
    exact switch_keeps strict hfits (h.local.count hheader) ch left
  · rw [Bool.not_eq_true] at hheader
    exact switch_keeps strict ⟨h.nread, h.index⟩ (h.local.body hheader) ch left

/-! ### Whole runs -/

section
variable {U : Type} (strict : Bool) (settings : Settings U)

/-- What is saved is what there was. -/
theorem Parser.Sound.save {q : Parser} (h : q.Sound) : q.save = q := by
  have hnread : q.nread % 2 ^ 32 = q.nread :=
    Nat.mod_eq_of_lt (lt_of_le_of_lt h.nread (by decide))
  rw [Parser.save, Nat.mod_eq_of_lt h.index, hnread]

theorem window_sound {q : Parser} (h : q.Sound) (data : Bytes) (u : U) :
    ((machine strict).window settings data q u).Ensures Parser.Sound (· ≠ .assertion) :=
  Machine.window_ensures (fun q a n hq => execByte_keeps strict q a n hq)
    (fun _ => Stop.noConfusion) h u

theorem executeEof_keeps (q : Parser) (u : U) : (executeEof settings q u).parser = q := by
  unfold executeEof
  cases q.state <;> rfl

/-- A call that parses all it gets leaves the parser sound, and none runs into an assertion. -/
theorem execute_sound {q : Parser} (h : q.Sound) (data : Bytes) (u : U) :
    (∃ r, execute strict settings q data u = .ok r ∧ (r.ended = .parsed → r.parser.Sound)) ∨
      execute strict settings q data u = .error .undefined := by
  unfold execute
  split_ifs with hdata
  · exact .inl ⟨_, rfl, fun _ => by rwa [executeEof_keeps]⟩
  · have hwindow := window_sound strict settings h data u
    generalize (machine strict).window settings data q u = r at hwindow ⊢
    cases r with
    | done q' u =>
      refine .inl ⟨_, rfl, fun _ => ?_⟩
      show q'.save.Sound
      rwa [Parser.Sound.save hwindow]
    | stopped o n u =>
      cases o with
      | undefined => exact .inr rfl
      | assertion => exact absurd rfl hwindow
      | _ => exact .inl ⟨_, rfl, fun h => by cases h⟩

theorem init_sound {q : Parser} (h : q.index < 2 ^ 8) (t : HttpParserType) : (q.init t).Sound := by
  cases t <;> exact ⟨Nat.zero_le _, h, trivial⟩

theorem executeAll_sound {q : Parser} (h : q.Sound) (segments : List Bytes) (u : U) :
    (∃ r, executeAll strict settings segments q u = .ok r ∧
        (r.ended = .parsed → r.parser.Sound)) ∨
      executeAll strict settings segments q u = .error .undefined := by
  induction segments generalizing q u with
  | nil => exact .inl ⟨_, rfl, fun _ => h⟩
  | cons data segments ih =>
    rw [executeAll]
    rcases execute_sound strict settings h data u with ⟨r, hr, hsound⟩ | hr
    · rw [hr]
      dsimp only
      split_ifs with hparsed
      · rcases ih (hsound hparsed) r.user with ⟨r', hr', hsound'⟩ | hr'
        · rw [hr']
          exact .inl ⟨_, rfl, hsound'⟩
        · rw [hr']
          exact .inr rfl
      · exact .inl ⟨r, rfl, fun hparsed' => absurd hparsed' hparsed⟩
    · rw [hr]
      exact .inr rfl

/-- However a stream is cut, and whatever the callbacks answer, the calls up to the first one that
a callback stops or that does not return the whole length pass all assertions. -/
theorem assertions_hold {q : Parser} (h : q.index < 2 ^ 8) (t : HttpParserType)
    (segments : List Bytes) (u : U) :
    executeAll strict settings segments (q.init t) u ≠ .error .assertion := by
  intro hfails
  rcases executeAll_sound strict settings (init_sound h t) segments u with
    ⟨r, hr, -⟩ | hr
  · rw [hfails] at hr
    cases hr
  · rw [hfails] at hr
    cases hr

/-- A parser of which nothing is known yet. -/
def blank : Parser where
  type := .both
  flags := .none
  contentLength := 0
  httpMajor := 0
  httpMinor := 0
  statusCode := 0
  method := .delete
  upgrade := false
  state := .dead
  headerState := .general
  index := 0
  nread := 0

theorem assertions_hold_split :
    executeAll true (U := ℕ) ⟨fun _ _ _ _ u => (0, u + 1), fun _ _ _ u => u, fun _ u => (1, u)⟩
      [bytes "GET /a HTTP/1.1\r\nTransfer-Enco", bytes "ding: chunked\r\n\r\n"]
      (blank.init .request) 0 ≠ .error .assertion :=
  assertions_hold true _ (by decide) .request _ 0

end

end NodeJS.HttpParser
