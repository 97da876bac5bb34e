import NodeJS.Buffer.Utf8
import NodeJS.Http.Header
import Mathlib.Data.List.Induction

/-! `http.js`: how the parser callbacks put header lines together from slices, and where
`_addHeaderLine` puts the lines. -/
namespace NodeJS.Http

/-! ### `_addHeaderLine` -/

/-- `field in dest` -/
def Headers.has (dest : Headers) (field : JSString) : Bool :=
  inherited field || dest.any fun e => e.1 = field

/-- The fields whose values are separated by commas. -/
def commaFields : List JSString :=
  [js "accept", js "accept-charset", js "accept-encoding", js "accept-language",
    js "connection", js "cookie", js "pragma", js "link"]

/-- `dest[field].push(value)` -/
def Value.push (value : JSString) : Value → Value
  | .many l => .many (l ++ [value])
  | .one s => .one s

/-- `dest[field] += ', ' + value` -/
def Value.join (value : JSString) : Value → Value
  | .one s => .one (s ++ js ", " ++ value)
  | .many l => .many l

def Headers.modifyField (dest : Headers) (field : JSString) (f : Value → Value) : Headers :=
  dest.map fun e => if e.1 = field then (e.1, f e.2) else e

/-- `_addHeaderLine` on `dest`, which is `headers` or `trailers`. -/
def Headers.addLine (dest : Headers) (line : Line) : Headers :=
  let (field, value) := line
  if field = js "set-cookie" then
    if dest.has field then dest.modifyField field (Value.push value)
    else dest ++ [(field, .many [value])]
  else if field ∈ commaFields ∨ field.take 2 = js "x-" then
    if dest.has field then dest.modifyField field (Value.join value)
    else dest ++ [(field, .one value)]
  else if ¬ dest.has field then dest ++ [(field, .one value)]
  else dest

structure Incoming where
  complete : Bool
  headers : Headers
  trailers : Headers

def Incoming.new : Incoming := ⟨false, [], []⟩

/-- `IncomingMessage.prototype._addHeaderLine`; a field that is null throws. -/
def Incoming.addHeaderLine (m : Incoming) (field : Option JSString) (value : JSString) :
    Option Incoming :=
  field.map fun field =>
    if m.complete then { m with trailers := m.trailers.addLine (field, value) }
    else { m with headers := m.headers.addLine (field, value) }

/-! ### The parser callbacks -/

/-- The parser as its callbacks see it; `none` is null. -/
structure Parser where
  incoming : Incoming
  field : Option JSString
  value : Option JSString

def Parser.onMessageBegin : Parser := ⟨Incoming.new, none, none⟩

/-- `parser.field && (parser.value != undefined)` -/
def Parser.pending (p : Parser) : Bool := p.field.getD [] ≠ [] ∧ p.value.isSome

def Parser.onHeaderField (p : Parser) (b : Bytes) : Option Parser := do
  let slice := toLowerCase (utf8Slice b)
  let p ← match p.value with
    | none => some p
    | some value => do
      let incoming ← p.incoming.addHeaderLine p.field value
      pure ⟨incoming, none, none⟩
  if p.field.getD [] ≠ [] then pure { p with field := some (p.field.getD [] ++ slice) }
  else pure { p with field := some slice }

def Parser.onHeaderValue (p : Parser) (b : Bytes) : Parser :=
  let slice := utf8Slice b
  if p.value.getD [] ≠ [] then { p with value := some (p.value.getD [] ++ slice) }
  else { p with value := some slice }

/-- The message as `onIncoming` gets to see it. -/
def Parser.onHeadersComplete (p : Parser) : Option Parser :=
  if p.pending then do
    let incoming ← p.incoming.addHeaderLine p.field (p.value.getD [])
    pure ⟨incoming, none, none⟩
  else some p

def Parser.onMessageComplete (p : Parser) : Option Parser :=
  let p := { p with incoming := { p.incoming with complete := true } }
  if p.pending then do
    let incoming ← p.incoming.addHeaderLine p.field (p.value.getD [])
    pure { p with incoming }
  else some p

/-- A header line as `http_parser` delivers it: at least one slice of the name, which is not
empty and has ASCII characters only, and then at least one of the value. -/
structure RawLine where
  names : List Bytes
  values : List Bytes
  names_ne_nil : names ≠ []
  values_ne_nil : values ≠ []
  name_ne_nil : names.flatten ≠ []
  name_ascii : ∀ b ∈ names.flatten, b < 0x80

/-- The line that the slices of a header add up to. -/
def RawLine.line (l : RawLine) : Line :=
  (l.names.flatMap fun b => toLowerCase (utf8Slice b), l.values.flatMap utf8Slice)

def Parser.deliverLine (p : Parser) (l : RawLine) : Option Parser := do
  let p ← l.names.foldlM Parser.onHeaderField p
  pure (l.values.foldl Parser.onHeaderValue p)

def Parser.deliver (p : Parser) (lines : List RawLine) : Option Parser :=
  lines.foldlM Parser.deliverLine p

/-! ### Slices of one line -/

theorem onHeaderField_none (m : Incoming) (field : Option JSString) (b : Bytes) :
    Parser.onHeaderField ⟨m, field, none⟩ b =
      some ⟨m, some (field.getD [] ++ toLowerCase (utf8Slice b)), none⟩ := by
  unfold Parser.onHeaderField
  by_cases h : field.getD [] = []
  · simp [h]
  · simp [h]

theorem onHeaderField_fold (m : Incoming) (field : Option JSString) {names : List Bytes}
    (hne : names ≠ []) :
    names.foldlM Parser.onHeaderField ⟨m, field, none⟩ =
      some ⟨m, some (field.getD [] ++ names.flatMap fun b => toLowerCase (utf8Slice b)), none⟩ := by
  induction names generalizing field with
  | nil => exact absurd rfl hne
  | cons b names ih =>
    rw [List.foldlM_cons, onHeaderField_none]
    simp only [Option.bind_eq_bind, Option.bind_some]
    by_cases hnil : names = []
    · simp [hnil]
    · rw [ih _ hnil]
      simp

theorem onHeaderValue_fold (p : Parser) {values : List Bytes} (hne : values ≠ []) :
    values.foldl Parser.onHeaderValue p =
      { p with value := some (p.value.getD [] ++ values.flatMap utf8Slice) } := by
  have hstep : ∀ (p : Parser) (b : Bytes), p.onHeaderValue b =
      { p with value := some (p.value.getD [] ++ utf8Slice b) } := by
    intro p b
    unfold Parser.onHeaderValue
    by_cases h : p.value.getD [] = []
    · simp [h]
    · simp [h]
  induction values generalizing p with
  | nil => exact absurd rfl hne
  | cons b values ih =>
    rw [List.foldl_cons, hstep]
    by_cases hnil : values = []
    · simp [hnil]
    · rw [ih _ hnil]
      simp

/-- A line that comes first, or after one that has been committed. -/
theorem deliverLine_none (m : Incoming) (l : RawLine) :
    Parser.deliverLine ⟨m, none, none⟩ l = some ⟨m, some l.line.1, some l.line.2⟩ := by
  unfold Parser.deliverLine
  rw [onHeaderField_fold m none l.names_ne_nil]
  simp only [Option.bind_eq_bind, Option.bind_some, onHeaderValue_fold _ l.values_ne_nil]
  rfl

/-- The first slice of a name commits the line before. -/
theorem deliverLine_some {m : Incoming} (hm : m.complete = false) (line : Line) (l : RawLine) :
    Parser.deliverLine ⟨m, some line.1, some line.2⟩ l =
      Parser.deliverLine ⟨{ m with headers := m.headers.addLine line }, none, none⟩ l := by
  unfold Parser.deliverLine
  cases hn : l.names with
  | nil => exact absurd hn l.names_ne_nil
  | cons b names =>
    have hfirst : Parser.onHeaderField ⟨m, some line.1, some line.2⟩ b =
        Parser.onHeaderField ⟨{ m with headers := m.headers.addLine line }, none, none⟩ b := by
      simp [Parser.onHeaderField, Incoming.addHeaderLine, hm]
    rw [List.foldlM_cons, List.foldlM_cons, hfirst]

/-- The parser after a number of lines: all but the last have been committed. -/
def Parser.after (m : Incoming) (lines : List Line) : Parser :=
  match lines.getLast? with
  | none => ⟨m, none, none⟩
  | some last => ⟨{ m with headers := lines.dropLast.foldl Headers.addLine m.headers },
      some last.1, some last.2⟩

theorem Parser.after_append (m : Incoming) (lines : List Line) (last : Line) :
    Parser.after m (lines ++ [last]) =
      ⟨{ m with headers := lines.foldl Headers.addLine m.headers }, some last.1, some last.2⟩ := by
  simp [Parser.after]

theorem deliver_eq {m : Incoming} (hm : m.complete = false) (lines : List RawLine) :
    Parser.deliver ⟨m, none, none⟩ lines = some (Parser.after m (lines.map RawLine.line)) := by
  induction lines using List.reverseRecOn with
  | nil => rfl
  | append_singleton lines l ih =>
    unfold Parser.deliver at ih ⊢
    rw [List.foldlM_append, ih, List.map_append, List.map_singleton, Parser.after_append]
    simp only [Option.bind_eq_bind, Option.bind_some, List.foldlM_cons, List.foldlM_nil]
    rcases List.eq_nil_or_concat' (lines.map RawLine.line) with hnil | ⟨init, last, he⟩
    · simp [hnil, Parser.after, deliverLine_none]
    · rw [he, Parser.after_append, deliverLine_some (by exact hm), deliverLine_none]
      simp

theorem RawLine.line_ne_nil (l : RawLine) : l.line.1 ≠ [] := by
  intro hnil
  apply l.name_ne_nil
  rw [List.flatten_eq_nil_iff]
  intro b hb
  have hslice : toLowerCase (utf8Slice b) = [] := by
    have hall := List.flatMap_eq_nil_iff.mp hnil
    exact hall b hb
  rw [utf8Slice_ascii fun x hx => l.name_ascii x (List.mem_flatten_of_mem hb hx)] at hslice
  simpa [toLowerCase] using hslice

/-- At the end of the header block the last line is committed too. -/
theorem onHeadersComplete_after {m : Incoming} (hm : m.complete = false) (lines : List RawLine) :
    (Parser.after m (lines.map RawLine.line)).onHeadersComplete =
      some ⟨{ m with headers := (lines.map RawLine.line).foldl Headers.addLine m.headers },
        none, none⟩ := by
  rcases List.eq_nil_or_concat' lines with rfl | ⟨init, last, rfl⟩
  · rfl
  · have hne := last.line_ne_nil
    rw [List.map_append, List.map_singleton, Parser.after_append]
    simp [Parser.onHeadersComplete, Parser.pending, hne, Incoming.addHeaderLine, hm]

structure AsciiLine extends RawLine where
  value_ascii : ∀ b ∈ values.flatten, b < 0x80

def RawLine.whole (l : RawLine) : Line :=
  (toLowerCase (utf8Slice l.names.flatten), utf8Slice l.values.flatten)

theorem flatMap_utf8Slice_ascii {slices : List Bytes} (h : ∀ b ∈ slices.flatten, b < 0x80) :
    slices.flatMap utf8Slice = utf8Slice slices.flatten := by
  induction slices with
  | nil => rfl
  | cons s slices ih =>
    rw [List.flatten_cons] at h
    have hs : ∀ b ∈ s, b < 0x80 := fun b hb => h b (List.mem_append_left _ hb)
    have hslices : ∀ b ∈ slices.flatten, b < 0x80 := fun b hb => h b (List.mem_append_right _ hb)
    rw [List.flatMap_cons, ih hslices, List.flatten_cons, utf8Slice_ascii h, utf8Slice_ascii hs,
      utf8Slice_ascii hslices, List.map_append]

theorem AsciiLine.line_eq_whole (l : AsciiLine) : l.line = l.whole := by
  unfold RawLine.line RawLine.whole
  rw [flatMap_utf8Slice_ascii l.value_ascii, ← flatMap_utf8Slice_ascii l.name_ascii]
  unfold toLowerCase
  rw [List.map_flatMap]

/-- The header block as `onIncoming` sees it does not depend on how it was cut. -/
theorem headers_of_slices (lines : List AsciiLine) :
    ∃ p q, Parser.onMessageBegin.deliver (lines.map AsciiLine.toRawLine) = some p ∧
      p.onHeadersComplete = some q ∧
      q.incoming.headers = (lines.map fun l => l.whole).foldl Headers.addLine [] := by
  have hbegin : Incoming.new.complete = false := rfl
  refine ⟨_, _, deliver_eq hbegin _, onHeadersComplete_after hbegin _, ?_⟩
  have hlines : (lines.map AsciiLine.toRawLine).map RawLine.line = lines.map fun l => l.whole := by
    rw [List.map_map]
    apply List.map_congr_left
    intro l _
    exact l.line_eq_whole
  rw [hlines]
  rfl

/-- `Accept: ab` and `accept: c`, cut inside a name and inside a value, with empty slices too. -/
def cutLines : List AsciiLine :=
  [⟨⟨[[0x41, 0x63, 0x63], [], [0x65, 0x70, 0x74]], [[0x61], [0x62]], by simp, by simp, by simp,
      by simp⟩, by simp⟩,
    ⟨⟨[[0x61, 0x63, 0x63, 0x65, 0x70, 0x74]], [[], [0x63], []], by simp, by simp, by simp,
      by simp⟩, by simp⟩]

theorem headers_of_slices_cut :
    ∃ p q, Parser.onMessageBegin.deliver (cutLines.map AsciiLine.toRawLine) = some p ∧
      p.onHeadersComplete = some q ∧
      q.incoming.headers = [(js "accept", .one (js "ab, c"))] := by
  obtain ⟨p, q, hp, hq, hheaders⟩ := headers_of_slices cutLines
  exact ⟨p, q, hp, hq, hheaders⟩

/-! ### Trailers -/

/-- At the end of the message only the last trailer line is left to be committed. -/
theorem onMessageComplete_after (m : Incoming) (init : List RawLine) (last : RawLine) :
    ((Parser.after m ((init ++ [last]).map RawLine.line)).onMessageComplete.map
        Parser.incoming) =
      some ⟨true, (init.map RawLine.line).foldl Headers.addLine m.headers,
        m.trailers.addLine last.line⟩ := by
  have hne := last.line_ne_nil
  rw [List.map_append, List.map_singleton, Parser.after_append]
  simp [Parser.onMessageComplete, Parser.pending, hne, Incoming.addHeaderLine]

/-- Fields of which the first line wins. -/
def DropsDuplicates (field : JSString) : Prop :=
  field ≠ js "set-cookie" ∧ ¬ (field ∈ commaFields ∨ field.take 2 = js "x-")

instance (field : JSString) : Decidable (DropsDuplicates field) :=
  inferInstanceAs (Decidable (_ ∧ _))

/-- The lines before the last one leave no trace anywhere: the headers have their fields
already, and as trailers they are of fields every object has or repeat the last one. -/
def TrailersFit (headers : Headers) (lines : List Line) : Prop :=
  ∀ init last, lines = init ++ [last] →
    (∀ l ∈ init, DropsDuplicates l.1 ∧ headers.has l.1 = true ∧
      (inherited l.1 = true ∨ l.1 = last.1)) ∧
    ∀ l, init.find? (fun l => !inherited l.1) = some l → l.2 = last.2

/-- Length of all values, counting array elements as one. -/
def Value.size : Value → ℕ
  | .one s => s.length
  | .many l => l.length

def Headers.size (dest : Headers) : ℕ := (dest.map fun e => e.2.size + 1).sum

/-- Values are arrays for cookies and strings for all other fields. -/
def Headers.Typed (dest : Headers) : Prop :=
  ∀ e ∈ dest, if e.1 = js "set-cookie" then ∃ l, e.2 = .many l else ∃ s, e.2 = .one s

theorem Headers.size_append (dest : Headers) (e : JSString × Value) :
    Headers.size (dest ++ [e]) = dest.size + (e.2.size + 1) := by
  simp [Headers.size]

theorem Headers.size_modifyField {dest : Headers} {field : JSString} {f : Value → Value}
    (hf : ∀ e ∈ dest, e.1 = field → e.2.size < (f e.2).size) :
    dest.size ≤ (dest.modifyField field f).size ∧
      ((∃ e ∈ dest, e.1 = field) → dest.size < (dest.modifyField field f).size) := by
  induction dest with
  | nil => simp [modifyField]
  | cons e dest ih =>
    obtain ⟨hle, hlt⟩ := ih fun x hx => hf x (by simp [hx])
    have hsize : ∀ (x : JSString × Value) (d : Headers),
        Headers.size (x :: d) = x.2.size + 1 + d.size := by
      intro x d
      simp [Headers.size]
    have hcons : Headers.modifyField (e :: dest) field f =
        (if e.1 = field then (e.1, f e.2) else e) :: Headers.modifyField dest field f := rfl
    rw [hcons, hsize, hsize]
    by_cases he : e.1 = field
    · have hgrow := hf e (by simp) he
      rw [if_pos he]
      dsimp only
      exact ⟨by omega, fun _ => by omega⟩
    · rw [if_neg he]
      refine ⟨by omega, ?_⟩
      rintro ⟨x, hx, hxf⟩
      rcases List.mem_cons.mp hx with rfl | hx
      · exact absurd hxf he
      · have := hlt ⟨x, hx, hxf⟩
        omega

theorem Headers.typed_append {dest : Headers} (h : dest.Typed) {e : JSString × Value}
    (he : if e.1 = js "set-cookie" then ∃ l, e.2 = .many l else ∃ s, e.2 = .one s) :
    Headers.Typed (dest ++ [e]) := by
  intro x hx
  rcases List.mem_append.mp hx with hx | hx
  · exact h x hx
  · rw [List.mem_singleton.mp hx]
    exact he

theorem Headers.typed_modifyField {dest : Headers} (h : dest.Typed) (field : JSString)
    {f : Value → Value} (hmany : ∀ l, ∃ l', f (.many l) = .many l')
    (hone : ∀ s, ∃ s', f (.one s) = .one s') : (dest.modifyField field f).Typed := by
  intro x hx
  obtain ⟨e, he, rfl⟩ := List.mem_map.mp hx
  have htyped := h e he
  by_cases hf : e.1 = field
  · rw [if_pos hf]
    split_ifs at htyped ⊢ with hc
    · obtain ⟨l, hl⟩ := htyped
      exact hl ▸ hmany l
    · obtain ⟨s, hs⟩ := htyped
      exact hs ▸ hone s
  · rw [if_neg hf]
    exact htyped

theorem Headers.exists_of_has {dest : Headers} {field : JSString} (h : dest.has field = true)
    (hi : inherited field = false) : ∃ e ∈ dest, e.1 = field := by
  simpa [Headers.has, hi] using h

/-- The fields that are not dropped are not inherited. -/
theorem inherited_dropsDuplicates {field : JSString} (h : inherited field = true) :
    DropsDuplicates field := by
  have hall : ∀ name ∈ inheritedNames, DropsDuplicates name := by decide
  exact hall field (List.contains_iff_mem.mp h)

/-- A line is dropped, or there is more afterwards than before. -/
theorem Headers.addLine_cases {dest : Headers} (h : dest.Typed) (line : Line) :
    (dest.addLine line).Typed ∧
      (DropsDuplicates line.1 ∧ dest.has line.1 = true ∧ dest.addLine line = dest ∨
        ¬ (DropsDuplicates line.1 ∧ dest.has line.1 = true) ∧
          dest.size < (dest.addLine line).size) := by
  obtain ⟨field, value⟩ := line
  unfold addLine DropsDuplicates
  dsimp only
  have hi : inherited field = true → DropsDuplicates field := inherited_dropsDuplicates
  by_cases hc : field = js "set-cookie"
  · have hinh : inherited field = false := by
      rw [hc]
      decide
    rw [if_pos hc]
    by_cases hhas : dest.has field = true
    · rw [if_pos hhas]
      refine ⟨typed_modifyField h field (fun l => ⟨_, rfl⟩) (fun s => ⟨_, rfl⟩), Or.inr ⟨?_, ?_⟩⟩
      · intro hd
        exact hd.1.1 hc
      · refine (size_modifyField ?_).2 (exists_of_has hhas hinh)
        intro e he hfield
        have htyped := h e he
        rw [if_pos (hfield.trans hc)] at htyped
        obtain ⟨l, hl⟩ := htyped
        rw [hl]
        simp [Value.push, Value.size]
    · rw [if_neg hhas]
      refine ⟨typed_append h (by simp [hc]), Or.inr ⟨fun hd => hhas hd.2, ?_⟩⟩
      rw [size_append]
      omega
  rw [if_neg hc]
  by_cases hj : field ∈ commaFields ∨ field.take 2 = js "x-"
  · have hinh : inherited field = false := by
      rw [← Bool.not_eq_true]
      intro hinh
      exact (hi hinh).2 hj
    rw [if_pos hj]
    by_cases hhas : dest.has field = true
    · rw [if_pos hhas]
      refine ⟨typed_modifyField h field (fun l => ⟨_, rfl⟩) (fun s => ⟨_, rfl⟩), Or.inr ⟨?_, ?_⟩⟩
      · intro hd
        exact hd.1.2 hj
      · refine (size_modifyField ?_).2 (exists_of_has hhas hinh)
        intro e he hfield
        have htyped := h e he
        rw [if_neg (fun heq => hc (hfield ▸ heq))] at htyped
        obtain ⟨s, hs⟩ := htyped
        rw [hs]
        simp only [Value.join, Value.size, List.length_append]
        have : (js ", ").length = 2 := by decide
        omega
    · rw [if_neg hhas]
      refine ⟨typed_append h (by simp [hc]), Or.inr ⟨fun hd => hhas hd.2, ?_⟩⟩
      rw [size_append]
      omega
  · rw [if_neg hj]
    by_cases hhas : dest.has field = true
    · rw [if_neg (by simp [hhas])]
      exact ⟨h, Or.inl ⟨⟨hc, hj⟩, hhas, rfl⟩⟩
    · rw [if_pos hhas]
      refine ⟨typed_append h (by simp [hc]), Or.inr ⟨fun hd => hhas hd.2, ?_⟩⟩
      rw [size_append]
      omega

theorem Headers.addLine_fold {dest : Headers} (h : dest.Typed) (lines : List Line) :
    Headers.Typed (lines.foldl addLine dest) ∧ dest.size ≤ (lines.foldl addLine dest).size := by
  induction lines generalizing dest with
  | nil => exact ⟨h, le_refl _⟩
  | cons line lines ih =>
    obtain ⟨htyped, hcases⟩ := addLine_cases h line
    obtain ⟨hfold, hle⟩ := ih htyped
    refine ⟨hfold, le_trans ?_ hle⟩
    rcases hcases with ⟨-, -, heq⟩ | ⟨-, hlt⟩
    · rw [heq]
    · exact hlt.le

/-- Lines that change nothing in the end change nothing on the way. -/
theorem Headers.fold_eq_self_iff {dest : Headers} (h : dest.Typed) (lines : List Line) :
    lines.foldl addLine dest = dest ↔
      ∀ l ∈ lines, DropsDuplicates l.1 ∧ dest.has l.1 = true := by
  induction lines with
  | nil => simp
  | cons line lines ih =>
    rw [List.forall_mem_cons, List.foldl_cons]
    obtain ⟨htyped, ⟨hdrop, hhas, heq⟩ | ⟨hno, hlt⟩⟩ := addLine_cases h line
    · rw [heq, ih]
      simp [hdrop, hhas]
    · constructor
      · intro hfold
        have hle := (addLine_fold htyped lines).2
        rw [hfold] at hle
        omega
      · intro hall
        exact absurd hall.1 hno

theorem Headers.typed_nil : Headers.Typed [] := by simp [Typed]

theorem Headers.has_nil (field : JSString) : Headers.has [] field = inherited field := by
  simp [has]

/-- A first line is kept unless its field is inherited. -/
theorem Headers.addLine_nil (line : Line) :
    Headers.addLine [] line =
      if inherited line.1 then []
      else if line.1 = js "set-cookie" then [(line.1, .many [line.2])]
      else [(line.1, .one line.2)] := by
  have hdrop : inherited line.1 = true → DropsDuplicates line.1 := inherited_dropsDuplicates
  unfold addLine
  simp only [has_nil]
  by_cases hi : inherited line.1 = true
  · obtain ⟨hc, hj⟩ := hdrop hi
    simp [hi, hc, hj]
  · simp [hi]

/-- An entry of a field that drops duplicates stays as it is. -/
theorem Headers.mem_addLine {dest : Headers} {field : JSString} {value : Value}
    (hd : DropsDuplicates field) (h : (field, value) ∈ dest) (line : Line) :
    (field, value) ∈ dest.addLine line := by
  have happend : ∀ e, (field, value) ∈ dest ++ [e] := fun e => List.mem_append_left _ h
  have hmodify : ∀ f, line.1 ≠ field → (field, value) ∈ dest.modifyField line.1 f := by
    intro f hne
    refine List.mem_map.mpr ⟨(field, value), h, ?_⟩
    rw [if_neg (fun heq => hne heq.symm)]
  unfold addLine
  dsimp only
  split_ifs with hc h1 hj h2 h3
  · exact hmodify _ (fun heq => hd.1 (heq ▸ hc))
  · exact happend _
  · exact hmodify _ (fun heq => hd.2 (heq ▸ hj))
  · exact happend _
  · exact h
  · exact happend _

theorem Headers.mem_fold {dest : Headers} {field : JSString} {value : Value}
    (hd : DropsDuplicates field) (h : (field, value) ∈ dest) (lines : List Line) :
    (field, value) ∈ lines.foldl addLine dest := by
  induction lines generalizing dest with
  | nil => exact h
  | cons line lines ih => exact ih (mem_addLine hd h line)

/-- The last line alone makes the same trailers as all of them. -/
theorem fold_eq_last_iff {init : List Line} (last : Line)
    (hinit : ∀ l ∈ init, DropsDuplicates l.1) :
    (init ++ [last]).foldl Headers.addLine [] = Headers.addLine [] last ↔
      (∀ l ∈ init, inherited l.1 = true ∨ l.1 = last.1) ∧
        ∀ l, init.find? (fun l => !inherited l.1) = some l → l.2 = last.2 := by
  have hnil := Headers.typed_nil
  cases hfind : init.find? fun l => !inherited l.1 with
  | none =>
    have hall : ∀ l ∈ init, inherited l.1 = true := by simpa using hfind
    have hfold : init.foldl Headers.addLine [] = [] := by
      rw [Headers.fold_eq_self_iff hnil]
      intro l hl
      rw [Headers.has_nil]
      exact ⟨hinit l hl, hall l hl⟩
    rw [List.foldl_append, hfold]
    simp only [List.foldl_cons, List.foldl_nil, reduceCtorEq, false_implies, implies_true, and_true,
      true_iff]
    intro l hl
    exact Or.inl (hall l hl)
  | some l₀ =>
    obtain ⟨hl₀, pre, post, rfl, hpre⟩ := List.find?_eq_some_iff_append.mp hfind
    have hi₀ : inherited l₀.1 = false := by simpa using hl₀
    have hdrop₀ := hinit l₀ (by simp)
    have hfirst : Headers.addLine [] l₀ = [(l₀.1, .one l₀.2)] := by
      rw [Headers.addLine_nil]
      simp [hi₀, hdrop₀.1]
    have hfold : ((pre ++ l₀ :: post) ++ [last]).foldl Headers.addLine [] =
        (post ++ [last]).foldl Headers.addLine [(l₀.1, .one l₀.2)] := by
      have hpre' : pre.foldl Headers.addLine [] = [] := by
        rw [Headers.fold_eq_self_iff hnil]
        intro l hl
        rw [Headers.has_nil]
        exact ⟨hinit l (by simp [hl]), by simpa using hpre l hl⟩
      rw [List.append_assoc, List.foldl_append, hpre', List.cons_append, List.foldl_cons, hfirst]
    have hsame : l₀ = last → Headers.addLine [] last = [(l₀.1, .one l₀.2)] := by
      rintro rfl
      exact hfirst
    have htyped : Headers.Typed [(l₀.1, .one l₀.2)] := by simp [Headers.Typed, hdrop₀.1]
    have hhas : ∀ field, Headers.has [(l₀.1, .one l₀.2)] field = true ↔
        inherited field = true ∨ field = l₀.1 := by
      intro field
      rw [eq_comm (a := field)]
      simp [Headers.has]
    rw [hfold]
    constructor
    · intro heq
      have hself : (l₀.1, Value.one l₀.2) ∈ [(l₀.1, Value.one l₀.2)] := List.mem_singleton.mpr rfl
      have hmem := Headers.mem_fold hdrop₀ hself (post ++ [last])
      rw [heq, Headers.addLine_nil] at hmem
      have hlast : l₀ = last := by
        split_ifs at hmem with h1 h2
        · simp at hmem
        · simp at hmem
        · simp only [List.mem_singleton, Prod.mk.injEq, Value.one.injEq] at hmem
          exact Prod.ext hmem.1 hmem.2
      rw [hsame hlast, Headers.fold_eq_self_iff htyped] at heq
      constructor
      · intro l hl
        rw [← hlast]
        rcases List.mem_append.mp hl with hl | hl
        · exact Or.inl (by simpa using hpre l hl)
        · rcases List.mem_cons.mp hl with rfl | hl
          · exact Or.inr rfl
          · exact (hhas l.1).mp (heq l (by simp [hl])).2
      · intro l hl
        rw [← Option.some.inj hl, hlast]
    · rintro ⟨hnames, hvalue⟩
      have hname : l₀.1 = last.1 := (hnames l₀ (by simp)).resolve_left (by simp [hi₀])
      have hlast : l₀ = last := Prod.ext hname (hvalue l₀ rfl)
      rw [hsame hlast, Headers.fold_eq_self_iff htyped]
      intro l hl
      rw [hhas, hname]
      rcases List.mem_append.mp hl with hl | hl
      · exact ⟨hinit l (by simp [hl]), hnames l (by simp [hl])⟩
      · rw [List.mem_singleton.mp hl]
        exact ⟨hname ▸ hdrop₀, Or.inr rfl⟩

/-- Exactly when the trailers of a message end up in `trailers`, and only there. -/
theorem trailers_kept_iff (headers trailers : List RawLine) :
    ∃ p q p' q', Parser.onMessageBegin.deliver headers = some p ∧ p.onHeadersComplete = some q ∧
      q.deliver trailers = some p' ∧ p'.onMessageComplete = some q' ∧
      ((q'.incoming.trailers = (trailers.map RawLine.line).foldl Headers.addLine [] ∧
          q'.incoming.headers = q.incoming.headers) ↔
        TrailersFit q.incoming.headers (trailers.map RawLine.line)) := by
  have hbegin : Incoming.new.complete = false := rfl
  obtain ⟨H, hH⟩ : ∃ H, H = (headers.map RawLine.line).foldl Headers.addLine [] := ⟨_, rfl⟩
  have htyped : Headers.Typed H := hH ▸ (Headers.addLine_fold Headers.typed_nil _).1
  have hdone : (Parser.after Incoming.new (headers.map RawLine.line)).onHeadersComplete =
      some ⟨⟨false, H, []⟩, none, none⟩ := by
    rw [onHeadersComplete_after hbegin, hH]
    rfl
  rcases List.eq_nil_or_concat' trailers with rfl | ⟨init, last, rfl⟩
  · refine ⟨_, _, _, _, deliver_eq hbegin _, hdone, rfl, rfl, ?_⟩
    simp [TrailersFit]
  · obtain ⟨q', hq', hinc⟩ := Option.map_eq_some_iff.mp
      (onMessageComplete_after ⟨false, H, []⟩ init last)
    refine ⟨_, _, _, q', deliver_eq hbegin _, hdone, deliver_eq rfl _, hq', ?_⟩
    rw [hinc, List.map_append, List.map_singleton]
    dsimp only
    have hfit : TrailersFit H (init.map RawLine.line ++ [last.line]) ↔
        (∀ l ∈ init.map RawLine.line, DropsDuplicates l.1 ∧ H.has l.1 = true) ∧
          ((∀ l ∈ init.map RawLine.line, inherited l.1 = true ∨ l.1 = last.line.1) ∧
            ∀ l, (init.map RawLine.line).find? (fun l => !inherited l.1) = some l →
              l.2 = last.line.2) := by
      constructor
      · intro h
        obtain ⟨hall, hvalue⟩ := h _ _ rfl
        exact ⟨fun l hl => ⟨(hall l hl).1, (hall l hl).2.1⟩, fun l hl => (hall l hl).2.2, hvalue⟩
      · rintro ⟨hdrop, hnames, hvalue⟩ init' last' he
        obtain ⟨rfl, rfl⟩ := List.append_singleton_inj.mp he
        exact ⟨fun l hl => ⟨(hdrop l hl).1, (hdrop l hl).2, hnames l hl⟩, hvalue⟩
    rw [hfit, ← Headers.fold_eq_self_iff htyped, and_comm]
    constructor
    · rintro ⟨hheaders, hlast⟩
      have hdrop := (Headers.fold_eq_self_iff htyped _).mp hheaders
      exact ⟨hheaders, (fold_eq_last_iff _ fun l hl => (hdrop l hl).1).mp hlast.symm⟩
    · rintro ⟨hheaders, hlast⟩
      have hdrop := (Headers.fold_eq_self_iff htyped _).mp hheaders
      exact ⟨hheaders, ((fold_eq_last_iff _ fun l hl => (hdrop l hl).1).mpr hlast).symm⟩

/-- Of the two trailers `a: 1` and `b: 2` the first becomes a header. -/
theorem trailers_misplaced :
    ∃ (a b : RawLine) (q p' q' : Parser), Parser.onMessageBegin.onHeadersComplete = some q ∧
      q.deliver [a, b] = some p' ∧ p'.onMessageComplete = some q' ∧
      ¬ (q'.incoming.trailers = [a.line, b.line].foldl Headers.addLine [] ∧
        q'.incoming.headers = q.incoming.headers) := by
  obtain ⟨a, ha⟩ : ∃ a : RawLine, a.line = (js "a", js "1") :=
    ⟨⟨[[0x61]], [[0x31]], by simp, by simp, by simp, by simp⟩, by decide⟩
  obtain ⟨b, hb⟩ : ∃ b : RawLine, b.line = (js "b", js "2") :=
    ⟨⟨[[0x62]], [[0x32]], by simp, by simp, by simp, by simp⟩, by decide⟩
  obtain ⟨q', hq', hinc⟩ := Option.map_eq_some_iff.mp (onMessageComplete_after Incoming.new [a] b)
  refine ⟨a, b, ⟨Incoming.new, none, none⟩, _, q', rfl, deliver_eq rfl _, hq', ?_⟩
  rintro ⟨-, hheaders⟩
  rw [hinc] at hheaders
  have hlen := congrArg List.length hheaders
  simp only [List.map_singleton, ha] at hlen
  exact absurd hlen (by decide)

end NodeJS.Http
