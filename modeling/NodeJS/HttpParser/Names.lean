import NodeJS.HttpParser.Assertions
import Mathlib.Data.List.DropRight

/-! How `http_parser_execute` recognizes the fields and the values that it acts on. -/
namespace NodeJS.HttpParser

/-- Without the spaces at the end. -/
def trimRight (l : Bytes) : Bytes := l.rdropWhile (· == 0x20)

theorem trimRight_snoc (l : Bytes) (c : UInt8) :
    trimRight (l ++ [c]) = if c = 0x20 then trimRight l else l ++ [c] := by
  unfold trimRight
  rw [List.rdropWhile_concat]
  simp

theorem trimRight_eq {l word : Bytes} (h : trimRight l = word) :
    ∃ n, l = word ++ List.replicate n 0x20 := by
  induction l using List.reverseRecOn generalizing word with
  | nil =>
    refine ⟨0, ?_⟩
    simpa [trimRight] using h
  | append_singleton l c ih =>
    rw [trimRight_snoc] at h
    split_ifs at h with hc
    · obtain ⟨n, rfl⟩ := ih h
      refine ⟨n + 1, ?_⟩
      rw [hc, List.append_assoc, List.replicate_succ']
    · refine ⟨0, ?_⟩
      simpa using h

/-! ### Fields -/

/-- What a character of a field does to `header_state` and `index`. -/
def fieldStep (h : HeaderState × ℕ) (ch : UInt8) : HeaderState × ℕ :=
  ((fieldChar { blank with headerState := h.1, index := h.2 } (TOKEN ch) ch).map fun q =>
    (q.headerState, q.index)).getD h

def fieldState : Bytes → HeaderState × ℕ
  | [] => (.general, 0)
  | c :: name => name.foldl fieldStep (fieldStart (TOKEN c), 0)

theorem fieldChar_eq (q : Parser) (ch : UInt8) (h : q.headerState.fieldIndex.isSome = true) :
    fieldChar q (TOKEN ch) ch = some { q with
      headerState := (fieldStep (q.headerState, q.index) ch).1
      index := (fieldStep (q.headerState, q.index) ch).2 } := by
  obtain ⟨m, s, headerState, index, nread⟩ := q
  unfold fieldStep fieldChar
  cases headerState <;> first | rfl | (dsimp only; split_ifs <;> rfl) | cases h

theorem fieldStep_isSome (h : HeaderState × ℕ) (ch : UInt8)
    (hh : h.1.fieldIndex.isSome = true) : (fieldStep h ch).1.fieldIndex.isSome = true := by
  obtain ⟨headerState, index⟩ := h
  unfold fieldStep fieldChar matching
  cases headerState <;> first | rfl | (dsimp only; split_ifs <;> rfl) | cases hh

theorem TOKEN_space (c : UInt8) : TOKEN c = 0x20 ↔ c = 0x20 := by
  unfold TOKEN
  split_ifs with hcap hctl hsep
  · have hle : (0x41 : UInt8).toNat ≤ c.toNat := hcap.1
    have hge : c.toNat ≤ (0x5a : UInt8).toNat := hcap.2
    rw [← UInt8.toNat_inj, ← UInt8.toNat_inj, UInt8.toNat_add]
    simp at hle hge ⊢
    omega
  · constructor
    · rintro ⟨⟩
    · rintro rfl
      exact absurd hctl (by decide)
  · constructor
    · rintro ⟨⟩
    · rintro rfl
      exact absurd hsep (by decide)
  · rfl

theorem TOKEN_token (c : UInt8) : TOKEN (TOKEN c) = TOKEN c := by
  revert c
  exact forall_byte (by decide +kernel)

/-- Capitals make no difference. -/
theorem fieldStep_TOKEN (h : HeaderState × ℕ) (ch : UInt8) :
    fieldStep h (TOKEN ch) = fieldStep h ch := by
  unfold fieldStep fieldChar
  rw [TOKEN_token]
  simp only [ne_eq, TOKEN_space]

theorem fieldState_TOKEN (name : Bytes) : fieldState (name.map TOKEN) = fieldState name := by
  cases name with
  | nil => rfl
  | cons c name =>
    rw [List.map_cons, fieldState, fieldState, TOKEN_token, List.foldl_map]
    congr 1
    funext h ch
    exact fieldStep_TOKEN h ch

/-- The field that a name stands for; capitals and spaces at the end make no difference. -/
def fieldOf (name : Bytes) : HeaderState :=
  let field := trimRight (name.map TOKEN)
  if field = CONNECTION ∨ field = PROXY_CONNECTION then .connection
  else if field = CONTENT_LENGTH then .contentLength
  else if field = TRANSFER_ENCODING then .transferEncoding
  else if field = UPGRADE then .upgrade
  else .general

/-- The state that a value is read in, as far as it makes a difference. -/
def HeaderState.field : HeaderState → HeaderState
  | .connection => .connection
  | .contentLength => .contentLength
  | .transferEncoding => .transferEncoding
  | .upgrade => .upgrade
  | _ => .general

/-- What has been read of a field, in lower case, by the time of such a state. -/
def Spells (p : Bytes) (h : HeaderState × ℕ) : Prop :=
  match h.1 with
  | .C => p = CONNECTION.take 1 ∧ h.2 = 0
  | .CO => p = CONNECTION.take 2 ∧ h.2 = 1
  | .CON => p = CONNECTION.take 3 ∧ h.2 = 2
  | .matchingConnection => p = CONNECTION.take (h.2 + 1) ∧ h.2 + 1 < CONNECTION.length
  | .matchingProxyConnection =>
    p = PROXY_CONNECTION.take (h.2 + 1) ∧ h.2 + 1 < PROXY_CONNECTION.length
  | .matchingContentLength => p = CONTENT_LENGTH.take (h.2 + 1) ∧ h.2 + 1 < CONTENT_LENGTH.length
  | .matchingTransferEncoding =>
    p = TRANSFER_ENCODING.take (h.2 + 1) ∧ h.2 + 1 < TRANSFER_ENCODING.length
  | .matchingUpgrade => p = UPGRADE.take (h.2 + 1) ∧ h.2 + 1 < UPGRADE.length
  | .connection => trimRight p = CONNECTION ∨ trimRight p = PROXY_CONNECTION
  | .contentLength => trimRight p = CONTENT_LENGTH
  | .transferEncoding => trimRight p = TRANSFER_ENCODING
  | .upgrade => trimRight p = UPGRADE
  | _ => True

/-- One more character of a word. -/
theorem matching_cases {word p : Bytes} (done : HeaderState) {headerState : HeaderState} {index : ℕ}
    (c : UInt8) {q : Parser} (hq : matching word done { blank with headerState, index } c = q)
    (hp : p = word.take (index + 1)) (hlt : index + 1 < word.length) :
    q.headerState = .general ∨ (q.headerState = done ∧ p ++ [c] = word) ∨
      (q.headerState = headerState ∧ p ++ [c] = word.take (q.index + 1) ∧
        q.index + 1 < word.length) := by
  subst hq
  unfold matching
  dsimp only
  by_cases hword : index + 1 > word.length ∨ c ≠ word.getD (index + 1) 0
  · rw [if_pos hword]
    exact .inl rfl
  have hc : c = word.getD (index + 1) 0 := not_not.mp fun hne => hword (.inr hne)
  have htake : p ++ [c] = word.take (index + 2) := by
    rw [hp, hc, List.getD_eq_getElem?_getD, List.getElem?_eq_getElem hlt, Option.getD_some,
      List.take_append_getElem hlt]
  rw [if_neg hword]
  right
  by_cases hlast : index + 1 = word.length - 1
  · left
    rw [if_pos hlast, htake, List.take_of_length_le (by omega)]
    exact ⟨rfl, rfl⟩
  · right
    rw [if_neg hlast]
    exact ⟨rfl, htake, by omega⟩

theorem spells_matching {word p : Bytes} {done headerState : HeaderState} {index : ℕ} (c : UInt8)
    (hp : p = word.take (index + 1)) (hlt : index + 1 < word.length)
    (hdone : ∀ i, Spells word (done, i))
    (hmore : ∀ p i, p = word.take (i + 1) → i + 1 < word.length → Spells p (headerState, i)) :
    Spells (p ++ [c])
      ((matching word done { blank with headerState, index } c).headerState,
        (matching word done { blank with headerState, index } c).index) := by
  generalize hq : matching word done { blank with headerState, index } c = q
  rcases matching_cases done c hq hp hlt with h | ⟨h, hword⟩ | ⟨h, htake, hlt⟩
  · rw [h]
    trivial
  · rw [h, hword]
    exact hdone q.index
  · rw [h]
    exact hmore _ _ htake hlt

/-- A field that was recognized stays so while there are spaces only. -/
theorem fieldStep_known {h : HeaderState} (hh : h.field ≠ .general) (index : ℕ) (c : UInt8) :
    fieldStep (h, index) c = (if c = 0x20 then h else .general, index) := by
  by_cases hc : c = 0x20
  · subst hc
    cases h <;> first | rfl | exact absurd rfl hh
  · unfold fieldStep fieldChar
    rw [if_neg hc]
    cases h <;> first | (dsimp only; rw [if_pos hc]; rfl) | exact absurd rfl hh

theorem spells_known {p : Bytes} {h : HeaderState} (hh : h.field ≠ .general) {index : ℕ} (c : UInt8)
    (hp : Spells (p ++ [0x20]) (h, index)) :
    Spells (p ++ [TOKEN c]) (fieldStep (h, index) c) := by
  rw [fieldStep_known hh]
  split_ifs with hc
  · rw [hc]
    exact hp
  · trivial

theorem trimRight_space (p : Bytes) : trimRight (p ++ [0x20]) = trimRight p := by
  rw [trimRight_snoc, if_pos rfl]

theorem fieldStep_spells {p : Bytes} {h : HeaderState × ℕ} (hp : Spells p h) (c : UInt8) :
    Spells (p ++ [TOKEN c]) (fieldStep h c) := by
  obtain ⟨headerState, index⟩ := h
  cases headerState with
  | C =>
    obtain ⟨rfl, rfl⟩ := hp
    unfold fieldStep fieldChar
    dsimp only
    split_ifs with hc
    · rw [hc]
      exact ⟨by decide, rfl⟩
    · trivial
  | CO =>
    obtain ⟨rfl, rfl⟩ := hp
    unfold fieldStep fieldChar
    dsimp only
    split_ifs with hc
    · rw [hc]
      exact ⟨by decide, rfl⟩
    · trivial
  | CON =>
    obtain ⟨rfl, rfl⟩ := hp
    unfold fieldStep fieldChar
    dsimp only
    split_ifs with hc hc
    · rw [hc]
      exact ⟨by decide, by decide⟩
    · rw [hc]
      exact ⟨by decide, by decide⟩
    · trivial
  | matchingConnection =>
    exact spells_matching _ hp.1 hp.2 (fun _ => .inl (by decide)) fun _ _ => And.intro
  | matchingProxyConnection =>
    exact spells_matching _ hp.1 hp.2 (fun _ => .inr (by decide)) fun _ _ => And.intro
  | matchingContentLength =>
    refine spells_matching _ hp.1 hp.2 (fun _ => ?_) fun _ _ => And.intro
    show trimRight CONTENT_LENGTH = CONTENT_LENGTH
    decide
  | matchingTransferEncoding =>
    refine spells_matching _ hp.1 hp.2 (fun _ => ?_) fun _ _ => And.intro
    show trimRight TRANSFER_ENCODING = TRANSFER_ENCODING
    decide
  | matchingUpgrade =>
    refine spells_matching _ hp.1 hp.2 (fun _ => ?_) fun _ _ => And.intro
    show trimRight UPGRADE = UPGRADE
    decide
  | connection =>
    apply spells_known HeaderState.noConfusion
    show trimRight _ = _ ∨ trimRight _ = _
    rw [trimRight_space]
    exact hp
  | contentLength =>
    apply spells_known HeaderState.noConfusion
    exact (trimRight_space p).trans hp
  | transferEncoding =>
    apply spells_known HeaderState.noConfusion
    exact (trimRight_space p).trans hp
  | upgrade =>
    apply spells_known HeaderState.noConfusion
    exact (trimRight_space p).trans hp
  | _ => trivial

theorem foldl_spells {p : Bytes} {h : HeaderState × ℕ} (hp : Spells p h) (name : Bytes) :
    Spells (p ++ name.map TOKEN) (name.foldl fieldStep h) := by
  induction name generalizing p h with
  | nil => simpa using hp
  | cons c name ih =>
    have hstep := ih (fieldStep_spells hp c)
    rw [List.append_assoc] at hstep
    exact hstep

theorem fieldStart_spells (c : UInt8) : Spells [c] (fieldStart c, 0) := by
  unfold fieldStart
  split_ifs with h h h h
  · exact ⟨by rw [h]; decide, rfl⟩
  · exact ⟨by rw [h]; decide, by decide⟩
  · exact ⟨by rw [h]; decide, by decide⟩
  · exact ⟨by rw [h]; decide, by decide⟩
  · trivial

theorem fieldState_spells {name : Bytes} (hne : name ≠ []) :
    Spells (name.map TOKEN) (fieldState name) := by
  cases name with
  | nil => exact absurd rfl hne
  | cons c name => exact foldl_spells (fieldStart_spells (TOKEN c)) name

/-- A word of the parser is recognized, in capitals too, with spaces after it. -/
theorem fieldState_word {name word : Bytes} {h : HeaderState} (hword : word ≠ [])
    (hstate : (fieldState word).1 = h) (hh : h.field ≠ .general)
    (hname : trimRight (name.map TOKEN) = word) : (fieldState name).1 = h := by
  obtain ⟨n, hn⟩ := trimRight_eq hname
  rw [← fieldState_TOKEN, hn]
  obtain ⟨c, word, rfl⟩ := List.exists_cons_of_ne_nil hword
  show ((word ++ _).foldl fieldStep (fieldStart (TOKEN c), 0)).1 = h
  rw [List.foldl_append]
  rw [fieldState] at hstate
  generalize word.foldl fieldStep (fieldStart (TOKEN c), 0) = s at hstate ⊢
  obtain ⟨_, index⟩ := s
  obtain rfl : _ = h := hstate
  clear hn
  induction n with
  | zero => rfl
  | succ n ih =>
    rw [List.replicate_succ, List.foldl_cons, fieldStep_known hh, if_pos rfl]
    exact ih

/-- What `header_state` says after a field. -/
theorem fieldState_field {name : Bytes} (hne : name ≠ []) :
    (fieldState name).1.field = fieldOf name := by
  have hspells := fieldState_spells hne
  unfold fieldOf
  dsimp only
  split_ifs with hconnection hlength hencoding hupgrade
  · rcases hconnection with h | h
    · rw [fieldState_word (h := .connection) (by decide) (by decide)
        HeaderState.noConfusion h]
      rfl
    · rw [fieldState_word (h := .connection) (by decide) (by decide)
        HeaderState.noConfusion h]
      rfl
  · rw [fieldState_word (h := .contentLength) (by decide) (by decide)
        HeaderState.noConfusion hlength]
    rfl
  · rw [fieldState_word (h := .transferEncoding) (by decide) (by decide)
        HeaderState.noConfusion hencoding]
    rfl
  · rw [fieldState_word (h := .upgrade) (by decide) (by decide)
        HeaderState.noConfusion hupgrade]
    rfl
  · generalize fieldState name = s at hspells
    obtain ⟨h, index⟩ := s
    cases h with
    | connection => exact absurd hspells hconnection
    | contentLength => exact absurd hspells hlength
    | transferEncoding => exact absurd hspells hencoding
    | upgrade => exact absurd hspells hupgrade
    | _ => rfl

/-! ### Values -/

/-- What the first character of a value does to `header_state`. -/
def valueFirst (field : HeaderState) (ch : UInt8) : HeaderState :=
  match valueStart { blank with headerState := field } ch with
  | .next q => q.headerState
  | _ => field

def valueStep (h : HeaderState × ℕ) (ch : UInt8) : HeaderState × ℕ :=
  match valueChar { blank with headerState := h.1, index := h.2 } ch with
  | .next q => (q.headerState, q.index)
  | _ => h

def valueState (field : HeaderState) : Bytes → HeaderState × ℕ
  | [] => (.general, 0)
  | c :: value => value.foldl valueStep (valueFirst field c, 0)

/-- The states in which a value is compared with a word, or not looked at. -/
def HeaderState.wordwise : HeaderState → Bool
  | .general | .matchingTransferEncodingChunked | .matchingConnectionKeepAlive
  | .matchingConnectionClose | .transferEncodingChunked | .connectionKeepAlive
  | .connectionClose => true
  | _ => false

theorem valueChar_eq (q : Parser) (ch : UInt8) (h : q.headerState.wordwise = true) :
    valueChar q ch = .next { q with
      headerState := (valueStep (q.headerState, q.index) ch).1
      index := (valueStep (q.headerState, q.index) ch).2 } := by
  obtain ⟨m, s, headerState, index, nread⟩ := q
  unfold valueStep valueChar
  cases headerState <;> first | rfl | (dsimp only; split_ifs <;> rfl) | cases h

theorem valueStep_wordwise (h : HeaderState × ℕ) (ch : UInt8) (hh : h.1.wordwise = true) :
    (valueStep h ch).1.wordwise = true := by
  obtain ⟨headerState, index⟩ := h
  unfold valueStep valueChar matching
  cases headerState <;> first | rfl | (dsimp only; split_ifs <;> rfl) | cases hh

/-- What has been read of the value of a field by the time of such a state. -/
def Says (field : HeaderState) (p : Bytes) (h : HeaderState × ℕ) : Prop :=
  match h.1 with
  | .matchingTransferEncodingChunked =>
    field = .transferEncoding ∧ p.map LOWER = CHUNKED.take (h.2 + 1) ∧ h.2 + 1 < CHUNKED.length
  | .matchingConnectionKeepAlive =>
    field = .connection ∧ p.map LOWER = KEEP_ALIVE.take (h.2 + 1) ∧ h.2 + 1 < KEEP_ALIVE.length
  | .matchingConnectionClose =>
    field = .connection ∧ p.map LOWER = CLOSE.take (h.2 + 1) ∧ h.2 + 1 < CLOSE.length
  | .transferEncodingChunked => field = .transferEncoding ∧ (trimRight p).map LOWER = CHUNKED
  | .connectionKeepAlive => field = .connection ∧ (trimRight p).map LOWER = KEEP_ALIVE
  | .connectionClose => field = .connection ∧ (trimRight p).map LOWER = CLOSE
  | _ => True

theorem LOWER_space : LOWER 0x20 = 0x20 := by decide

/-- A word has no spaces at its end. -/
theorem trimRight_of_lower {p word : Bytes} (hword : word.getLast? ≠ some 0x20)
    (hp : p.map LOWER = word) : trimRight p = p := by
  rcases List.eq_nil_or_concat' p with rfl | ⟨l, c, rfl⟩
  · rfl
  · rw [trimRight_snoc]
    apply if_neg
    rintro rfl
    apply hword
    rw [← hp]
    simp [LOWER_space]

theorem says_matching {field : HeaderState} {word p : Bytes} {done headerState : HeaderState}
    {index : ℕ} (c : UInt8) (hp : p.map LOWER = word.take (index + 1)) (hlt : index + 1 < word.length)
    (hword : word.getLast? ≠ some 0x20)
    (hdone : ∀ p i, (trimRight p).map LOWER = word → Says field p (done, i))
    (hmore : ∀ p i, p.map LOWER = word.take (i + 1) → i + 1 < word.length →
      Says field p (headerState, i)) :
    Says field (p ++ [c])
      ((matching word done { blank with headerState, index } (LOWER c)).headerState,
        (matching word done { blank with headerState, index } (LOWER c)).index) := by
  have hmap : (p ++ [c]).map LOWER = p.map LOWER ++ [LOWER c] := List.map_append
  generalize hq : matching word done { blank with headerState, index } (LOWER c) = q
  rcases matching_cases done (LOWER c) hq hp hlt with h | ⟨h, hfull⟩ | ⟨h, htake, hlt⟩
  · rw [h]
    trivial
  · rw [h]
    apply hdone
    rw [trimRight_of_lower hword (hmap.trans hfull), hmap, hfull]
  · rw [h]
    exact hmore _ _ (hmap.trans htake) hlt

/-- The state after a value, as far as it makes a difference. -/
def HeaderState.said : HeaderState → HeaderState
  | .transferEncodingChunked => .transferEncodingChunked
  | .connectionKeepAlive => .connectionKeepAlive
  | .connectionClose => .connectionClose
  | _ => .general

/-- A value that was recognized stays so while there are spaces only. -/
theorem valueStep_said {h : HeaderState} (hh : h.said ≠ .general) (index : ℕ) (c : UInt8) :
    valueStep (h, index) c = (if c = 0x20 then h else .general, index) := by
  by_cases hc : c = 0x20
  · subst hc
    cases h <;> first | rfl | exact absurd rfl hh
  · unfold valueStep valueChar
    cases h <;> first | (dsimp only; rw [if_pos hc, if_neg hc]) | exact absurd rfl hh

theorem says_said {field : HeaderState} {p : Bytes} {h : HeaderState} (hh : h.said ≠ .general)
    {index : ℕ} (c : UInt8) (hp : Says field (p ++ [0x20]) (h, index)) :
    Says field (p ++ [c]) (valueStep (h, index) c) := by
  rw [valueStep_said hh]
  split_ifs with hc
  · rw [hc]
    exact hp
  · trivial

theorem valueStep_agrees {field : HeaderState} {p : Bytes} {h : HeaderState × ℕ}
    (hh : h.1.wordwise = true) (hp : Says field p h) (c : UInt8) :
    Says field (p ++ [c]) (valueStep h c) := by
  obtain ⟨h, index⟩ := h
  have hspace : trimRight (p ++ [0x20]) = trimRight p := trimRight_space p
  cases h with
  | general => trivial
  | matchingTransferEncodingChunked =>
    obtain ⟨hfield, hp, hlt⟩ := hp
    exact says_matching c hp hlt (by decide) (fun _ _ h => ⟨hfield, h⟩)
      fun _ _ h hlt => ⟨hfield, h, hlt⟩
  | matchingConnectionKeepAlive =>
    obtain ⟨hfield, hp, hlt⟩ := hp
    exact says_matching c hp hlt (by decide) (fun _ _ h => ⟨hfield, h⟩)
      fun _ _ h hlt => ⟨hfield, h, hlt⟩
  | matchingConnectionClose =>
    obtain ⟨hfield, hp, hlt⟩ := hp
    exact says_matching c hp hlt (by decide) (fun _ _ h => ⟨hfield, h⟩)
      fun _ _ h hlt => ⟨hfield, h, hlt⟩
  | transferEncodingChunked =>
    apply says_said HeaderState.noConfusion
    show _ ∧ (trimRight _).map LOWER = _
    rw [hspace]
    exact hp
  | connectionKeepAlive =>
    apply says_said HeaderState.noConfusion
    show _ ∧ (trimRight _).map LOWER = _
    rw [hspace]
    exact hp
  | connectionClose =>
    apply says_said HeaderState.noConfusion
    show _ ∧ (trimRight _).map LOWER = _
    rw [hspace]
    exact hp
  | _ => cases hh

theorem foldl_agrees {field : HeaderState} {p : Bytes} {h : HeaderState × ℕ}
    (hh : h.1.wordwise = true) (hp : Says field p h) (value : Bytes) :
    Says field (p ++ value) (value.foldl valueStep h) := by
  induction value generalizing p h with
  | nil => simpa using hp
  | cons c value ih =>
    have hstep := ih (valueStep_wordwise h c hh) (valueStep_agrees hh hp c)
    rw [List.append_assoc] at hstep
    exact hstep

theorem LOWER_space_iff (c : UInt8) : LOWER c ≠ 0x20 → c ≠ 0x20 := by
  rintro h rfl
  exact h (by decide)

theorem LOWER_LOWER (c : UInt8) : LOWER (LOWER c) = LOWER c := by
  rw [LOWER, LOWER, UInt8.or_assoc, UInt8.or_self]

theorem valueStep_LOWER {h : HeaderState × ℕ} (hh : h.1.wordwise = true) {c : UInt8}
    (hc : LOWER c ≠ 0x20) : valueStep h (LOWER c) = valueStep h c := by
  have hc' : c ≠ 0x20 := LOWER_space_iff c hc
  obtain ⟨h, index⟩ := h
  unfold valueStep valueChar
  rw [LOWER_LOWER]
  cases h <;> first | rfl | (dsimp only; rw [if_pos hc, if_pos hc']) | cases hh

theorem foldl_LOWER {h : HeaderState × ℕ} (hh : h.1.wordwise = true) {value : Bytes}
    (hvalue : ∀ c ∈ value, LOWER c ≠ 0x20) :
    (value.map LOWER).foldl valueStep h = value.foldl valueStep h := by
  induction value generalizing h with
  | nil => rfl
  | cons c value ih =>
    rw [List.map_cons, List.foldl_cons, List.foldl_cons,
      valueStep_LOWER hh (hvalue c List.mem_cons_self)]
    exact ih (valueStep_wordwise h c hh) fun c hc => hvalue c (List.mem_cons_of_mem _ hc)

theorem valueFirst_wordwise (field : HeaderState) (c : UInt8)
    (hfield : field = .connection ∨ field = .transferEncoding) :
    (valueFirst field c).wordwise = true := by
  unfold valueFirst valueStart
  rcases hfield with rfl | rfl
  · dsimp only
    split_ifs <;> rfl
  · dsimp only
    split_ifs <;> rfl

theorem valueFirst_LOWER (field : HeaderState) (c : UInt8)
    (hfield : field = .connection ∨ field = .transferEncoding) :
    valueFirst field (LOWER c) = valueFirst field c := by
  unfold valueFirst valueStart
  rw [LOWER_LOWER]
  rcases hfield with rfl | rfl <;> rfl

/-- A word is recognized in capitals too, with spaces after it. -/
theorem valueState_word {field h : HeaderState} {word value : Bytes}
    (hfield : field = .connection ∨ field = .transferEncoding) (hword : word ≠ [])
    (hspace : ∀ c ∈ word, c ≠ 0x20) (hstate : (valueState field word).1 = h)
    (hh : h.said ≠ .general) (hvalue : (trimRight value).map LOWER = word) :
    (valueState field value).1 = h := by
  obtain ⟨n, hn⟩ := trimRight_eq (l := value) rfl
  generalize trimRight value = w at hvalue hn
  subst hvalue
  obtain ⟨c, l, rfl⟩ := List.exists_cons_of_ne_nil (l := w) (by rintro rfl; exact hword rfl)
  have hl : ∀ d ∈ l, LOWER d ≠ 0x20 := fun d hd =>
    hspace _ (List.mem_map_of_mem (List.mem_cons_of_mem c hd))
  rw [List.map_cons, valueState, valueFirst_LOWER field c hfield,
    foldl_LOWER (valueFirst_wordwise field c hfield) hl] at hstate
  rw [hn, List.cons_append, valueState, List.foldl_append]
  generalize l.foldl valueStep (valueFirst field c, 0) = s at hstate ⊢
  obtain ⟨_, index⟩ := s
  obtain rfl : _ = h := hstate
  clear hn
  induction n with
  | zero => rfl
  | succ n ih =>
    rw [List.replicate_succ, List.foldl_cons, valueStep_said hh, if_pos rfl]
    exact ih

/-- What the value of a field says; capitals and spaces at the end make no difference. -/
def sayingOf (field : HeaderState) (value : Bytes) : HeaderState :=
  let word := (trimRight value).map LOWER
  if field = .transferEncoding ∧ word = CHUNKED then .transferEncodingChunked
  else if field = .connection ∧ word = KEEP_ALIVE then .connectionKeepAlive
  else if field = .connection ∧ word = CLOSE then .connectionClose
  else .general

theorem valueFirst_agrees (field : HeaderState) (c : UInt8)
    (hfield : field = .connection ∨ field = .transferEncoding) :
    Says field [c] (valueFirst field c, 0) := by
  unfold valueFirst valueStart
  rcases hfield with rfl | rfl
  · dsimp only
    split_ifs with h h
    · exact ⟨rfl, by rw [List.map_singleton, h]; decide, by decide⟩
    · exact ⟨rfl, by rw [List.map_singleton, h]; decide, by decide⟩
    · trivial
  · dsimp only
    split_ifs with h
    · exact ⟨rfl, by rw [List.map_singleton, h]; decide, by decide⟩
    · trivial

theorem valueState_agrees {field : HeaderState}
    (hfield : field = .connection ∨ field = .transferEncoding) (value : Bytes) :
    Says field value (valueState field value) := by
  cases value with
  | nil => trivial
  | cons c value =>
    exact foldl_agrees (valueFirst_wordwise field c hfield) (valueFirst_agrees field c hfield) value

/-- The words are recognized in the spelling of the tables. -/
theorem valueState_tables :
    (valueState .transferEncoding CHUNKED).1 = .transferEncodingChunked ∧
      (valueState .connection KEEP_ALIVE).1 = .connectionKeepAlive ∧
      (valueState .connection CLOSE).1 = .connectionClose ∧
      ∀ word ∈ [CHUNKED, KEEP_ALIVE, CLOSE], word ≠ [] ∧ ∀ c ∈ word, c ≠ 0x20 := by
  decide +kernel

theorem foldl_general (value : Bytes) (index : ℕ) :
    value.foldl valueStep (.general, index) = (.general, index) := by
  induction value with
  | nil => rfl
  | cons c value ih => exact ih

/-- What `header_state` says after the value of a field. -/
theorem valueState_said {field : HeaderState} (hfield : field.field = field)
    (hlength : field ≠ .contentLength) (value : Bytes) :
    (valueState field value).1.said = sayingOf field value := by
  have hwords : field = .connection ∨ field = .transferEncoding →
      (valueState field value).1.said = sayingOf field value := by
    intro hf
    have hsays := valueState_agrees hf value
    unfold sayingOf
    dsimp only
    split_ifs with hchunked halive hclose
    · obtain ⟨rfl, hword⟩ := hchunked
      obtain ⟨hne, hspace⟩ := valueState_tables.2.2.2 CHUNKED (by simp)
      rw [valueState_word hf hne hspace valueState_tables.1 HeaderState.noConfusion hword]
      rfl
    · obtain ⟨rfl, hword⟩ := halive
      obtain ⟨hne, hspace⟩ := valueState_tables.2.2.2 KEEP_ALIVE (by simp)
      rw [valueState_word hf hne hspace valueState_tables.2.1 HeaderState.noConfusion hword]
      rfl
    · obtain ⟨rfl, hword⟩ := hclose
      obtain ⟨hne, hspace⟩ := valueState_tables.2.2.2 CLOSE (by simp)
      rw [valueState_word hf hne hspace valueState_tables.2.2.1 HeaderState.noConfusion hword]
      rfl
    · generalize valueState field value = s at hsays
      obtain ⟨h, index⟩ := s
      cases h with
      | transferEncodingChunked => exact absurd hsays hchunked
      | connectionKeepAlive => exact absurd hsays halive
      | connectionClose => exact absurd hsays hclose
      | _ => rfl
  have hgeneral : (∀ c, valueFirst field c = .general) → field ≠ .connection →
      field ≠ .transferEncoding → (valueState field value).1.said = sayingOf field value := by
    intro hfirst hc ht
    have hsaying : sayingOf field value = .general := by simp [sayingOf, hc, ht]
    rw [hsaying]
    cases value with
    | nil => rfl
    | cons c value =>
      rw [valueState, hfirst, foldl_general]
      rfl
  cases field with
  | connection => exact hwords (.inl rfl)
  | transferEncoding => exact hwords (.inr rfl)
  | contentLength => exact absurd rfl hlength
  | general => exact hgeneral (fun _ => rfl) HeaderState.noConfusion HeaderState.noConfusion
  | upgrade => exact hgeneral (fun _ => rfl) HeaderState.noConfusion HeaderState.noConfusion
  | _ => cases hfield

end NodeJS.HttpParser
