import NodeJS.HttpParser.Execute
import NodeJS.Lib.Windows

/-! How a stream is cut into segments makes no difference to what is parsed. -/
namespace NodeJS.HttpParser
open Lib.Marks (Act Machine Client Outcome Feed)

/-! ### The marks -/

/-- A URL and its parts. -/
def overlap (k k' : Mark) : Prop :=
  k = .url ∧ k' ∈ [Mark.path, .queryString, .fragment] ∨
    k' = .url ∧ k ∈ [Mark.path, .queryString, .fragment]

instance (k k' : Mark) : Decidable (overlap k k') := inferInstanceAs (Decidable (_ ∨ _))

/-- The calls that end without a way for the client to go on. -/
def Stop.fatal : Stop → Prop
  | .error _ | .undefined | .assertion => True
  | .returned _ | .refused _ => False

/-- The marks of a state that is left in order. -/
abbrev Marked (A : Finset Mark) (act : Step) : Prop :=
  act.Marked (fun q : Parser => q.state.marks) overlap Stop.fatal A

section
variable {A : Finset Mark} {q : Parser}

@[simp] theorem marked_error : Marked A (error q) := .inl trivial

@[simp] theorem marked_undefined : Marked A (.stop .undefined) := .inl trivial

@[simp] theorem marked_assertion : Marked A (.stop .assertion) := .inl trivial

@[simp] theorem marked_next : Marked A (.next q) ↔ A = q.state.marks := Iff.rfl

theorem marked_next_of {s : State} (h : q.state = s) (hA : A = s.marks) :
    Marked A (.next q) := by
  rw [marked_next, h, hA]

@[simp] theorem marked_goto {s : State} : Marked A (goto q s) ↔ A = s.marks := Iff.rfl

@[simp] theorem marked_callback {ks : List Mark} {rest : Step} :
    Marked A (CALLBACK ks q rest) ↔ Marked (ks.foldl Finset.erase A) rest := by
  induction ks generalizing A with
  | nil => rfl
  | cons k ks ih => exact ih

@[simp] theorem marked_callback2 {n : Message → Notification} {rest : Step} :
    Marked ∅ (CALLBACK2 n q rest) ↔ Marked ∅ rest := by
  constructor
  · intro h
    exact h.2 0
  · intro h
    refine ⟨rfl, fun r => ?_⟩
    dsimp only
    split_ifs
    · exact .inr rfl
    · exact h

@[simp] theorem marked_mark {k : Mark} {rest : Step} :
    Marked A (.mark k rest) ↔
      k ∉ A ∧ (∀ k' ∈ A, overlap k k' ∧ overlap k' k) ∧ Marked (insert k A) rest := Iff.rfl

@[simp] theorem marked_ite {p : Prop} [Decidable p] {a b : Step} :
    Marked A (if p then a else b) ↔ (p → Marked A a) ∧ (¬ p → Marked A b) := by
  split_ifs with h
  · simp [h]
  · simp [h]

@[simp] theorem marked_strict {strict : Bool} {p : Prop} [Decidable p] {rest : Step}
    (h : Marked A rest) : Marked A (STRICT_CHECK strict p q rest) := by
  unfold STRICT_CHECK
  split_ifs
  · exact marked_error
  · exact h

end

theorem newMessage_marks (strict : Bool) (q : Parser) : (NEW_MESSAGE strict q).marks = ∅ := by
  unfold NEW_MESSAGE
  split_ifs <;> rfl

theorem messageComplete_marked (strict : Bool) (q : Parser) :
    Marked ∅ (messageComplete strict q) := by
  rw [messageComplete, marked_callback2, marked_goto, newMessage_marks]

theorem messageBegin_marked {q : Parser} {rest : Parser → Step}
    (h : Marked ∅ (rest { q with flags := .none, contentLength := -1 })) :
    Marked ∅ (messageBegin q rest) := by
  rw [messageBegin, marked_callback2]
  exact h

theorem startReqMethodAssign_marked (q : Parser) (ch : UInt8) :
    Marked ∅ (startReqMethodAssign q ch) := by
  unfold startReqMethodAssign
  cases methodOf ch with
  | none => exact marked_error
  | some m => rfl

theorem reqMethod_marked {q : Parser} (h : q.state = .reqMethod) (ch : UInt8) :
    Marked ∅ (reqMethod q ch) := by
  have hnext : ∀ m, Marked ∅ (.next { q with method := m, index := q.index + 1 }) := fun m =>
    marked_next_of h rfl
  unfold reqMethod
  dsimp only
  split_ifs
  · exact marked_error
  · exact marked_undefined
  · rfl
  · exact hnext q.method
  · cases otherMethod q.method q.index ch with
    | none => exact marked_error
    | some m => exact hnext m

/-- The switch over `header_state` leaves the state alone. -/
theorem fieldChar_state {q q' : Parser} {c ch : UInt8} (h : fieldChar q c ch = some q') :
    q'.state = q.state := by
  unfold fieldChar at h
  split at h
  any_goals cases h <;> rfl
  all_goals
    cases h
    split_ifs <;> rfl

theorem headersComplete_marked (strict : Bool) (q : Parser) :
    Marked ∅ (headersComplete strict q) := by
  simp only [headersComplete, marked_ite, messageComplete_marked, marked_goto, marked_callback2,
    State.marks, implies_true, and_true]
  exact fun _ => .inr rfl

theorem headersAlmostDone_marked (strict : Bool) (q : Parser) (ch : UInt8) :
    Marked ∅ (headersAlmostDone strict q ch) := by
  unfold headersAlmostDone
  apply marked_strict
  rw [marked_ite]
  refine ⟨fun _ => messageComplete_marked strict q, fun _ => ⟨rfl, fun r => ?_⟩⟩
  dsimp only
  split_ifs
  · exact headersComplete_marked strict _
  · exact headersComplete_marked strict _
  · exact .inr rfl

theorem headerFieldStart_marked (strict : Bool) (q : Parser) (ch : UInt8) :
    Marked ∅ (headerFieldStart strict q ch) := by
  simp only [headerFieldStart, marked_ite, marked_goto, headersAlmostDone_marked, marked_error,
    marked_mark, marked_next, State.marks, implies_true, true_and]
  intro _ _ _
  decide

theorem headerField_marked {q : Parser} (h : q.state = .headerField) (ch : UInt8) :
    Marked {.headerField} (headerField q ch) := by
  simp +decide only [headerField, marked_ite, marked_callback, marked_goto, marked_error,
    List.foldl, implies_true, and_true]
  intro _
  cases hc : fieldChar q (TOKEN ch) ch with
  | none => exact marked_assertion
  | some q' => exact marked_next_of ((fieldChar_state hc).trans h) rfl

theorem valueStart_marked {q : Parser} (h : q.state = .headerValue) (ch : UInt8) :
    Marked {.headerValue} (valueStart q ch) := by
  unfold valueStart
  split
  any_goals exact marked_next_of h rfl
  split_ifs
  · exact marked_error
  · exact marked_next_of h rfl

theorem headerValueStart_marked {q : Parser} (h : q.state = .headerValueStart) (ch : UInt8) :
    Marked ∅ (headerValueStart q ch) := by
  unfold headerValueStart
  rw [marked_ite]
  refine ⟨fun _ => marked_next_of h rfl, fun _ => ⟨by decide, by decide, ?_⟩⟩
  show Marked {.headerValue} _
  simp +decide only [marked_ite, marked_callback, marked_next, marked_goto, List.foldl,
    implies_true, true_and]
  intro _ _
  exact valueStart_marked rfl ch

theorem valueChar_marked {q : Parser} (h : q.state = .headerValue) (ch : UInt8) :
    Marked {.headerValue} (valueChar q ch) := by
  have hspace : Marked {.headerValue}
      (.next (if ch ≠ 0x20 then { q with headerState := .general } else q)) := by
    split_ifs
    · exact marked_next_of h rfl
    · exact marked_next_of h rfl
  unfold valueChar
  split
  any_goals exact marked_next_of h rfl
  any_goals exact marked_assertion
  any_goals exact hspace
  · unfold addDigit
    dsimp only
    split_ifs
    · exact marked_next_of h rfl
    · exact marked_error
    · exact marked_undefined
    · exact marked_next_of h rfl
  · rfl

theorem headerAlmostDone_marked (strict : Bool) (q : Parser) (ch : UInt8) :
    Marked ∅ (headerAlmostDone strict q ch) := by
  unfold headerAlmostDone
  apply marked_strict
  dsimp only
  split <;> rfl

theorem headerValue_marked {strict : Bool} {q : Parser} (h : q.state = .headerValue) (ch : UInt8) :
    Marked {.headerValue} (headerValue strict q ch) := by
  unfold headerValue
  rw [marked_ite, marked_callback, marked_goto, marked_ite, marked_callback]
  refine ⟨fun _ => by decide, fun _ => ⟨fun _ => ?_, fun _ => valueChar_marked h ch⟩⟩
  exact headerAlmostDone_marked strict q ch

theorem bodyIdentity_marked {strict : Bool} {q : Parser} (h : q.state = .bodyIdentity) (left : ℕ) :
    Marked ∅ (bodyIdentity strict q left) := by
  unfold bodyIdentity
  dsimp only
  rw [marked_ite]
  refine ⟨fun _ => ⟨rfl, ?_⟩, fun _ => marked_next_of h rfl⟩
  show Marked ∅ _
  rw [marked_ite]
  exact ⟨fun _ => messageComplete_marked strict _, fun _ => marked_next_of h rfl⟩

theorem chunkData_marked {q : Parser} (h : q.state = .chunkData) (left : ℕ) :
    Marked ∅ (chunkData q left) := by
  unfold chunkData assertChunked
  rw [marked_ite]
  refine ⟨fun _ => ?_, fun _ => marked_assertion⟩
  have hrest : Marked ∅ (.next { q with
      state := if min (left : ℤ) q.contentLength = q.contentLength then .chunkDataAlmostDone
        else q.state
      contentLength := q.contentLength - min (left : ℤ) q.contentLength }) := by
    split_ifs
    · rfl
    · exact marked_next_of h rfl
  dsimp only
  rw [marked_ite]
  exact ⟨fun _ => ⟨rfl, hrest⟩, fun _ => hrest⟩

theorem switch_marked (strict : Bool) (q : Parser) (ch : UInt8) (left : ℕ) :
    Marked q.state.marks (switch strict q ch left q.state) := by
  cases hs : q.state with
  | startReqOrRes =>
    rw [switch, marked_ite]
    refine ⟨fun _ => marked_next_of hs rfl, fun _ => messageBegin_marked ?_⟩
    rw [marked_ite]
    exact ⟨fun _ => rfl, fun _ => startReqMethodAssign_marked _ ch⟩
  | startRes =>
    rw [switch]
    refine messageBegin_marked ?_
    split_ifs
    · rfl
    · exact marked_next_of hs rfl
    · exact marked_error
  | startReq =>
    rw [switch, marked_ite]
    refine ⟨fun _ => marked_next_of hs rfl, fun _ => messageBegin_marked ?_⟩
    rw [marked_ite]
    exact ⟨fun _ => marked_error, fun _ => startReqMethodAssign_marked _ ch⟩
  | reqMethod => exact reqMethod_marked hs ch
  | reqSpacesBeforeUrl =>
    rw [switch, reqSpacesBeforeUrl]
    split_ifs
    · exact marked_next_of hs rfl
    · simp +decide [State.marks]
    · simp +decide [State.marks]
    · simp +decide [State.marks]
    · exact marked_error
  | headerFieldStart => exact headerFieldStart_marked strict q ch
  | headerField => exact headerField_marked hs ch
  | headerValueStart => exact headerValueStart_marked hs ch
  | headerValue => exact headerValue_marked hs ch
  | headerValueLws =>
    rw [switch, headerValueLws]
    split_ifs
    · rfl
    · exact headerFieldStart_marked strict _ ch
  | headerAlmostDone => exact headerAlmostDone_marked strict q ch
  | headersAlmostDone => exact headersAlmostDone_marked strict q ch
  | chunkData => exact chunkData_marked hs left
  | bodyIdentity => exact bodyIdentity_marked hs left
  | bodyIdentityEof => exact ⟨rfl, marked_next_of hs rfl⟩
  | _ =>
    simp +decide [switch, hs, State.marks, reqSchema, reqHost, reqPort, endHost, reqPath, reqQueryString,
      reqQueryStringStart, reqFragment, reqFragmentStart, endUrl, firstHttpMajor, httpMajor,
      firstHttpMinor, httpMinor, firstStatusCode, resStatusCode, assertChunked, chunkSizeStart,
      chunkSize, addDigit, chunkSizeAlmostDone]

theorem execByte_marked (strict : Bool) (q : Parser) (ch : UInt8) (left : ℕ) :
    Marked q.state.marks (execByte strict q ch left) := by
  unfold execByte
  dsimp only
  split_ifs
  · exact marked_error
  · exact switch_marked strict { q with nread := q.nread + 1 } ch left
  · exact switch_marked strict q ch left

/-! ### Bodies -/

/-- The states that take their bytes in one. -/
def State.inBody : State → Bool
  | .bodyIdentity | .bodyIdentityEof | .chunkData => true
  | _ => false

theorem messageComplete_plain (strict : Bool) (q : Parser) : (messageComplete strict q).Plain := by
  intro r
  dsimp only
  split_ifs <;> trivial

section
variable {q : Parser}

@[simp] theorem plain_ite {p : Prop} [Decidable p] {a b : Step} :
    (if p then a else b).Plain ↔ (p → a.Plain) ∧ (¬ p → b.Plain) := by
  split_ifs with h
  · simp [h]
  · simp [h]

@[simp] theorem plain_error : (error q).Plain := trivial

@[simp] theorem plain_goto {s : State} : (goto q s).Plain := trivial

@[simp] theorem plain_next : (Act.next q : Step).Plain := trivial

@[simp] theorem plain_stop {o : Stop} : (Act.stop o : Step).Plain := trivial

@[simp] theorem plain_mark {k : Mark} {rest : Step} :
    (Act.mark k rest : Step).Plain ↔ rest.Plain := Iff.rfl

@[simp] theorem plain_callback {ks : List Mark} {rest : Step} :
    (CALLBACK ks q rest).Plain ↔ rest.Plain := by
  induction ks with
  | nil => rfl
  | cons k ks ih =>
    constructor
    · intro h
      exact ih.mp (h 0)
    · intro h r
      dsimp only
      split_ifs
      · trivial
      · exact ih.mpr h

@[simp] theorem plain_callback2 {n : Message → Notification} {rest : Step} :
    (CALLBACK2 n q rest).Plain ↔ rest.Plain := by
  constructor
  · intro h
    exact h 0
  · intro h r
    dsimp only
    split_ifs
    · trivial
    · exact h

@[simp] theorem plain_strict {strict : Bool} {p : Prop} [Decidable p] {rest : Step}
    (h : rest.Plain) : (STRICT_CHECK strict p q rest).Plain := by
  unfold STRICT_CHECK
  split_ifs
  · trivial
  · exact h

end

theorem headersComplete_plain (strict : Bool) (q : Parser) : (headersComplete strict q).Plain := by
  simp [headersComplete, messageComplete_plain]

theorem headersAlmostDone_plain (strict : Bool) (q : Parser) (ch : UInt8) :
    (headersAlmostDone strict q ch).Plain := by
  unfold headersAlmostDone
  apply plain_strict
  rw [plain_ite]
  refine ⟨fun _ => messageComplete_plain strict q, fun _ r => ?_⟩
  simp [headersComplete_plain]

theorem headerFieldStart_plain (strict : Bool) (q : Parser) (ch : UInt8) :
    (headerFieldStart strict q ch).Plain := by
  simp [headerFieldStart, headersAlmostDone_plain]

theorem startReqMethodAssign_plain (q : Parser) (ch : UInt8) :
    (startReqMethodAssign q ch).Plain := by
  unfold startReqMethodAssign
  cases methodOf ch <;> trivial

theorem reqMethod_plain (q : Parser) (ch : UInt8) : (reqMethod q ch).Plain := by
  unfold reqMethod
  dsimp only
  split_ifs
  any_goals trivial
  cases otherMethod q.method q.index ch <;> trivial

theorem headerField_plain (q : Parser) (ch : UInt8) : (headerField q ch).Plain := by
  simp only [headerField, plain_ite, plain_callback, plain_goto, plain_error, implies_true, and_true]
  intro _
  cases fieldChar q (TOKEN ch) ch <;> trivial

theorem headerValueStart_plain (q : Parser) (ch : UInt8) : (headerValueStart q ch).Plain := by
  simp only [headerValueStart, plain_ite, plain_mark, plain_callback, plain_goto, plain_next,
    implies_true, true_and]
  intro _ _ _
  unfold valueStart
  split
  any_goals trivial
  split_ifs <;> trivial

theorem headerAlmostDone_plain (strict : Bool) (q : Parser) (ch : UInt8) :
    (headerAlmostDone strict q ch).Plain := by
  unfold headerAlmostDone
  apply plain_strict
  dsimp only
  split <;> trivial

theorem headerValue_plain (strict : Bool) (q : Parser) (ch : UInt8) :
    (headerValue strict q ch).Plain := by
  simp only [headerValue, plain_ite, plain_callback, plain_goto, headerAlmostDone_plain,
    implies_true, true_and]
  intro _ _
  unfold valueChar
  split
  any_goals trivial
  simp [addDigit]

theorem switch_plain {strict : Bool} {s : State} (h : s.inBody = false) (q : Parser) (ch : UInt8)
    (left : ℕ) : (switch strict q ch left s).Plain := by
  cases s with
  | chunkData => cases h
  | bodyIdentity => cases h
  | bodyIdentityEof => cases h
  | reqMethod => exact reqMethod_plain q ch
  | headerField => exact headerField_plain q ch
  | headerValueStart => exact headerValueStart_plain q ch
  | headerValue => exact headerValue_plain strict q ch
  | headerAlmostDone => exact headerAlmostDone_plain strict q ch
  | _ =>
    simp [switch, messageBegin, startReqMethodAssign_plain, reqSpacesBeforeUrl, reqSchema, reqHost,
      reqPort, endHost, reqPath, reqQueryString, reqQueryStringStart, reqFragment,
      reqFragmentStart, endUrl, firstHttpMajor, httpMajor, firstHttpMinor, httpMinor,
      firstStatusCode, resStatusCode, headerFieldStart_plain, headerValueLws,
      headersAlmostDone_plain, assertChunked, chunkSizeStart, chunkSize, addDigit,
      chunkSizeAlmostDone]

/-- Outside of bodies the rest of the window is of no interest. -/
theorem switch_left {strict : Bool} {s : State} (h : s.inBody = false) (q : Parser) (ch : UInt8)
    (left left' : ℕ) : switch strict q ch left s = switch strict q ch left' s := by
  cases s with
  | chunkData => cases h
  | bodyIdentity => cases h
  | bodyIdentityEof => cases h
  | _ => rfl

theorem execByte_body {strict : Bool} {q : Parser} (h : q.state.inBody = true) (ch : UInt8)
    (left : ℕ) : execByte strict q ch left = switch strict q ch left q.state := by
  have hheader : q.state.parsingHeader = false := by
    cases hs : q.state with
    | chunkData => rfl
    | bodyIdentity => rfl
    | bodyIdentityEof => rfl
    | _ =>
      rw [hs] at h
      cases h
  rw [execByte, hheader, if_neg Bool.false_ne_true]

theorem execByte_plain {strict : Bool} {q : Parser} (h : q.state.inBody = false) (ch : UInt8)
    (left : ℕ) :
    (execByte strict q ch left).Plain ∧ execByte strict q ch left = execByte strict q ch 1 := by
  unfold execByte
  constructor
  · simp only [plain_ite, plain_error, implies_true, true_and]
    exact ⟨fun _ _ => switch_plain h _ ch left, fun _ => switch_plain h q ch left⟩
  · rw [switch_left h q ch left 1]
    dsimp only
    rw [switch_left h _ ch left 1]

theorem bodyIdentityEof_bulk (strict : Bool) {q : Parser} (h : q.state = .bodyIdentityEof)
    {left : ℕ} (hleft : 0 < left) :
    (machine strict).Bulk q left left (.next q) := by
  have hstep : ∀ a n, (machine strict).step q a n = .take n (.next q) := by
    intro a n
    show execByte strict q a n = _
    rw [execByte_body (by rw [h]; rfl), h, switch]
  induction left with
  | zero => cases hleft
  | succ left ih =>
    by_cases hpos : 0 < left
    · exact .more (fun a => hstep a _) (fun a => hstep a 1) (ih hpos)
    · obtain rfl : left = 0 := by omega
      exact .one (fun a => hstep a 1) (fun a => hstep a 1) trivial

def Parser.readOne (q : Parser) : Parser := { q with contentLength := q.contentLength - 1 }

/-- A body of known length: what follows the bytes that are taken depends on their number and not
on how they were taken. -/
theorem counted_bulk {strict : Bool} {P : Parser → Prop} {rest : Parser → ℕ → Step}
    (hstep : ∀ q, P q → ∀ a (n k : ℕ), min (n : ℤ) q.contentLength = k + 1 →
      execByte strict q a n = .take (k + 1) (rest q (k + 1)))
    (hplain : ∀ q k, (rest q k).Plain)
    (hmore : ∀ q, P q → 1 < q.contentLength →
      P q.readOne ∧ rest q 1 = .next q.readOne ∧ ∀ k, rest q.readOne k = rest q (k + 1))
    {k n : ℕ} {q : Parser} (hq : P q) (hk : min (n : ℤ) q.contentLength = k + 1) :
    (machine strict).Bulk q n (k + 1) (rest q (k + 1)) := by
  have hone : ∀ q, P q → 0 < q.contentLength → ∀ a, execByte strict q a 1 = .take 1 (rest q 1) :=
    fun q hq hpos a => hstep q hq a 1 0 (by omega)
  induction k generalizing n q with
  | zero => exact .one (fun a => hstep q hq a n 0 hk) (hone q hq (by omega)) (hplain q 1)
  | succ k ih =>
    obtain ⟨n, rfl⟩ : ∃ n', n = n' + 1 := ⟨n - 1, by omega⟩
    obtain ⟨hnext, hrest, hgo⟩ := hmore q hq (by omega)
    have hbulk := ih (n := n) hnext (by unfold Parser.readOne; dsimp only; omega)
    rw [hgo] at hbulk
    refine .more (fun a => hstep q hq a _ _ hk) (fun a => ?_) hbulk
    rw [← hrest]
    exact hone q hq (by omega) a

/-- What follows bytes of a body with a `Content-Length`. -/
def bodyRest (strict : Bool) (q : Parser) (k : ℕ) : Step :=
  let q := { q with contentLength := q.contentLength - k }
  if q.contentLength = 0 then messageComplete strict q else .next q

theorem execByte_bodyIdentity {strict : Bool} {q : Parser} (h : q.state = .bodyIdentity)
    (ch : UInt8) {left k : ℕ} (hk : min (left : ℤ) q.contentLength = k + 1) :
    execByte strict q ch left = .take (k + 1) (bodyRest strict q (k + 1)) := by
  rw [execByte_body (by rw [h]; rfl), h, switch, bodyIdentity, hk]
  dsimp only
  rw [if_pos (by omega)]
  rfl

theorem execByte_bodyIdentity_none {strict : Bool} {q : Parser} (h : q.state = .bodyIdentity)
    (hnone : q.contentLength ≤ 0) (ch : UInt8) (left : ℕ) :
    execByte strict q ch left = .next q := by
  rw [execByte_body (by rw [h]; rfl), h, switch, bodyIdentity]
  dsimp only
  rw [if_neg (by omega)]

theorem bodyIdentity_bulk (strict : Bool) {q : Parser} (h : q.state = .bodyIdentity) {k n : ℕ}
    (hk : min (n : ℤ) q.contentLength = k + 1) :
    (machine strict).Bulk q n (k + 1) (bodyRest strict q (k + 1)) := by
  refine counted_bulk (P := fun q => q.state = .bodyIdentity) ?_ ?_ ?_ h hk
  · intro q h a n k hk
    exact execByte_bodyIdentity h a hk
  · intro q k
    unfold bodyRest
    simp [messageComplete_plain]
  · intro q h hlt
    refine ⟨h, ?_, fun k => ?_⟩
    · unfold bodyRest Parser.readOne
      dsimp only
      rw [if_neg (by omega)]
      rfl
    · have hleft : q.contentLength - 1 - k = q.contentLength - (k + 1 : ℕ) := by omega
      unfold bodyRest Parser.readOne
      dsimp only
      rw [hleft]

def chunkRest (q : Parser) (k : ℕ) : Step :=
  .next { q with
    state := if k = q.contentLength then .chunkDataAlmostDone else q.state
    contentLength := q.contentLength - k }

theorem execByte_chunkData {strict : Bool} {q : Parser} (h : q.state = .chunkData)
    (hchunked : q.flags.chunked = true) (ch : UInt8) {left k : ℕ}
    (hk : min (left : ℤ) q.contentLength = k + 1) :
    execByte strict q ch left = .take (k + 1) (chunkRest q (k + 1)) := by
  rw [execByte_body (by rw [h]; rfl), h, switch, chunkData, assertChunked, if_pos hchunked, hk]
  dsimp only
  rw [if_pos (by omega)]
  rfl

/-- A chunk of which nothing is to come. -/
theorem execByte_chunkData_none {strict : Bool} {q : Parser} (h : q.state = .chunkData)
    (hnone : q.contentLength ≤ 0) (ch : UInt8) {left : ℕ} :
    execByte strict q ch left =
      assertChunked q (.next { q with state := .chunkDataAlmostDone, contentLength := 0 }) := by
  have hmin : min (left : ℤ) q.contentLength = q.contentLength := by omega
  rw [execByte_body (by rw [h]; rfl), h, switch, chunkData, hmin]
  dsimp only
  rw [if_neg (by omega), if_pos rfl, Int.sub_self]

theorem chunkData_bulk (strict : Bool) {q : Parser} (h : q.state = .chunkData)
    (hchunked : q.flags.chunked = true) {k n : ℕ} (hk : min (n : ℤ) q.contentLength = k + 1) :
    (machine strict).Bulk q n (k + 1) (chunkRest q (k + 1)) := by
  refine counted_bulk (P := fun q => q.state = .chunkData ∧ q.flags.chunked = true) ?_ ?_ ?_
    ⟨h, hchunked⟩ hk
  · intro q ⟨h, hchunked⟩ a n k hk
    exact execByte_chunkData h hchunked a hk
  · intro q k
    trivial
  · intro q ⟨h, hchunked⟩ hlt
    refine ⟨⟨h, hchunked⟩, ?_, fun k => ?_⟩
    · unfold chunkRest Parser.readOne
      rw [if_neg (by omega)]
      rfl
    · unfold chunkRest Parser.readOne
      dsimp only
      have hleft : q.contentLength - 1 - k = q.contentLength - (k + 1 : ℕ) := by omega
      have hlast : (k : ℤ) = q.contentLength - 1 ↔ ((k + 1 : ℕ) : ℤ) = q.contentLength := by omega
      simp only [hleft, hlast]

/-- The bytes of bodies can be taken in one. -/
theorem execByte_bulk (strict : Bool) (q : Parser) (ch : UInt8) {left : ℕ} (hleft : 0 < left) :
    (execByte strict q ch left).Plain ∧ execByte strict q ch left = execByte strict q ch 1 ∨
      ∃ k rest, k ≤ left ∧ execByte strict q ch left = .take k rest ∧
        (machine strict).Bulk q left k rest := by
  have hsome : 0 < q.contentLength → ∃ k : ℕ, min (left : ℤ) q.contentLength = k + 1 := fun hpos =>
    ⟨(min (left : ℤ) q.contentLength).toNat - 1, by omega⟩
  by_cases hbody : q.state.inBody = true
  swap
  · rw [Bool.not_eq_true] at hbody
    exact .inl (execByte_plain hbody ch left)
  · cases hs : q.state with
    | bodyIdentityEof =>
      refine .inr ⟨left, .next q, le_refl _, ?_, bodyIdentityEof_bulk strict hs hleft⟩
      rw [execByte_body hbody, hs, switch]
    | bodyIdentity =>
      by_cases hpos : 0 < q.contentLength
      · obtain ⟨k, hk⟩ := hsome hpos
        exact .inr ⟨k + 1, _, by omega, execByte_bodyIdentity hs ch hk,
          bodyIdentity_bulk strict hs hk⟩
      · have hnone : q.contentLength ≤ 0 := by omega
        rw [execByte_bodyIdentity_none hs hnone, execByte_bodyIdentity_none hs hnone]
        exact .inl ⟨trivial, rfl⟩
    | chunkData =>
      by_cases hpos : 0 < q.contentLength ∧ q.flags.chunked = true
      · obtain ⟨k, hk⟩ := hsome hpos.1
        exact .inr ⟨k + 1, _, by omega, execByte_chunkData hs hpos.2 ch hk,
          chunkData_bulk strict hs hpos.2 hk⟩
      · left
        by_cases hchunked : q.flags.chunked = true
        · have hnone : q.contentLength ≤ 0 := by
            by_contra hlt
            exact hpos ⟨by omega, hchunked⟩
          rw [execByte_chunkData_none hs hnone, execByte_chunkData_none hs hnone, assertChunked,
            if_pos hchunked]
          exact ⟨trivial, rfl⟩
        · have hfails : ∀ n, execByte strict q ch n = .stop .assertion := by
            intro n
            rw [execByte_body hbody, hs, switch, chunkData, assertChunked, if_neg hchunked]
          rw [hfails, hfails]
          exact ⟨trivial, rfl⟩
    | _ =>
      rw [hs] at hbody
      cases hbody

theorem machine_orderly (strict : Bool) : (machine strict).Orderly overlap Stop.fatal where
  order := by
    show [Mark.headerField, .headerValue, .fragment, .queryString, .path, .url].Nodup
    decide
  complete k := by
    show k ∈ [Mark.headerField, .headerValue, .fragment, .queryString, .path, .url]
    cases k <;> decide
  active q := by
    show ∀ k ∈ q.state.marks, ∀ k' ∈ q.state.marks, k ≠ k' → overlap k k'
    cases q.state <;> decide
  marked q ch left _ := execByte_marked strict q ch left
  bulk q ch left hleft := execByte_bulk strict q ch hleft

end NodeJS.HttpParser
