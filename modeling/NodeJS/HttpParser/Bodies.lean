import NodeJS.HttpParser.Heads

/-! What `http_parser_execute` makes of bodies: of known length, in chunks, or up to the end. -/
namespace NodeJS.HttpParser
open Lib.Marks (Act Machine Feed fed)

variable {U : Type} (strict : Bool) {f : Feed UInt8 Mark Notification U}

def hearBody (f : Feed UInt8 Mark Notification U) (u : U) (b : Bytes) : U :=
  if b = [] then u else f.body b u

theorem hearBody_append (hf : f.Lawful overlap) (u : U) (b b' : Bytes) :
    hearBody f (hearBody f u b) b' = hearBody f u (b ++ b') := by
  unfold hearBody
  by_cases hb : b = []
  · simp [hb]
  · by_cases hb' : b' = []
    · simp [hb']
    · simp [hb, hb', hf.body_append]

/-- A byte of a body. -/
theorem reads_bodyByte {q q' : Parser} {a : UInt8} {u u' : U} (hmarks : q'.state.marks = ∅)
    (h : (execByte strict q a 1).feed f a u = (.inl q', u')) :
    Reads strict f [a] q u q' u' := by
  apply Machine.Reads.one
  rw [Machine.byte, show (machine strict).step q a 1 = execByte strict q a 1 from rfl, h]
  show (_, fed f q'.state.marks a (machine strict).order u') = _
  rw [hmarks, Lib.Marks.fed_empty]

/-! ### Bodies of known length -/

/-- A body with a `Content-Length` is handed on, and its last byte completes the message. -/
theorem reads_identity (hw : Willing f) (hf : f.Lawful overlap) {b : Bytes} (hb : b ≠ [])
    {q : Parser} (hs : q.state = .bodyIdentity) (hlength : q.contentLength = b.length) (x : Bytes)
    (u : U) :
    Reads strict f b q (hearBody f u x)
      { q with
        contentLength := 0
        state := NEW_MESSAGE strict q }
      (hearComplete f (hearBody f u (x ++ b)) { q.toMessage with contentLength := 0 }) := by
  induction b generalizing q x with
  | nil => exact absurd rfl hb
  | cons a b ih =>
    have hstep : execByte strict q a 1 = .take 1 (bodyRest strict q 1) :=
      execByte_bodyIdentity hs a (k := 0) (by rw [hlength, List.length_cons]; omega)
    have hbody : f.body [a] (hearBody f u x) = hearBody f u (x ++ [a]) :=
      hearBody_append hf u x [a]
    have hleft : q.contentLength - (1 : ℕ) = b.length := by
      rw [hlength, List.length_cons]
      omega
    by_cases hnil : b = []
    · subst hnil
      refine reads_bodyByte strict (newMessage_marks strict q) ?_
      rw [hstep, Act.feed, hbody, bodyRest]
      dsimp only
      rw [hleft, if_pos (by simp), feed_messageComplete strict hw]
      rfl
    · have hone : Reads strict f [a] q (hearBody f u x) { q with contentLength := b.length }
          (hearBody f u (x ++ [a])) := by
        refine reads_bodyByte strict (by
          show q.state.marks = ∅
          rw [hs]
          rfl) ?_
        have hpos : (b.length : ℤ) ≠ 0 := by
          intro h
          exact hnil (List.length_eq_zero_iff.mp (by exact_mod_cast h))
        rw [hstep, Act.feed, hbody, bodyRest]
        dsimp only
        rw [hleft, if_neg hpos]
        rfl
      have hmore := ih (q := { q with contentLength := b.length }) hnil hs rfl (x ++ [a])
      rw [List.append_assoc] at hmore
      exact hone.append hmore

/-! ### Chunks -/

theorem reads_chunkData (hf : f.Lawful overlap) {b : Bytes} (hb : b ≠ []) {q : Parser}
    (hs : q.state = .chunkData) (hchunked : q.flags.chunked = true)
    (hlength : q.contentLength = b.length) (x : Bytes) (u : U) :
    Reads strict f b q (hearBody f u x)
      { q with contentLength := 0, state := .chunkDataAlmostDone } (hearBody f u (x ++ b)) := by
  induction b generalizing q x with
  | nil => exact absurd rfl hb
  | cons a b ih =>
    have hstep : execByte strict q a 1 = .take 1 (chunkRest q 1) :=
      execByte_chunkData hs hchunked a (k := 0) (by rw [hlength, List.length_cons]; omega)
    have hbody : f.body [a] (hearBody f u x) = hearBody f u (x ++ [a]) :=
      hearBody_append hf u x [a]
    have hleft : q.contentLength - (1 : ℕ) = b.length := by
      rw [hlength, List.length_cons]
      omega
    by_cases hnil : b = []
    · subst hnil
      refine reads_bodyByte strict rfl ?_
      rw [hstep, Act.feed, hbody, chunkRest, hleft, if_pos (by rw [hlength]; rfl)]
      rfl
    · have hpos : ((1 : ℕ) : ℤ) ≠ q.contentLength := by
        intro h
        rw [← h] at hleft
        exact hnil (List.length_eq_zero_iff.mp (by omega))
      have hone : Reads strict f [a] q (hearBody f u x) { q with contentLength := b.length }
          (hearBody f u (x ++ [a])) := by
        refine reads_bodyByte strict (by
          show q.state.marks = ∅
          rw [hs]
          rfl) ?_
        rw [hstep, Act.feed, hbody, chunkRest, hleft, if_neg hpos]
        rfl
      have hmore := ih (q := { q with contentLength := b.length }) hnil hs hchunked rfl (x ++ [a])
      rw [List.append_assoc] at hmore
      exact hone.append hmore

theorem execByte_data {q : Parser} (h : q.state.parsingHeader = false) (ch : UInt8) (left : ℕ) :
    execByte strict q ch left = switch strict q ch left q.state := by
  rw [execByte, h, if_neg (by decide)]

/-- The line break after the data of a chunk. -/
theorem reads_chunkEnd {q : Parser} (hs : q.state = .chunkDataAlmostDone)
    (hchunked : q.flags.chunked = true) (u : U) :
    Reads strict f [CR, LF] q u { q with state := .chunkSizeStart } u := by
  have hcr : Reads strict f [CR] q u { q with state := .chunkDataDone } u := by
    refine reads_bodyByte strict rfl ?_
    rw [execByte_data strict (by rw [hs]; rfl), hs, switch, assertChunked, if_pos hchunked,
      strict_check_self]
    rfl
  have hlf : Reads strict f [LF] { q with state := .chunkDataDone } u
      { q with state := .chunkSizeStart } u := by
    refine reads_bodyByte strict rfl ?_
    rw [execByte_data strict rfl, switch, assertChunked, if_pos hchunked, strict_check_self]
    rfl
  exact hcr.append hlf

/-! ### Sizes -/

def sizeStep (n : ℤ) (c : UInt8) : ℤ := n * 16 + unhex c

def sizeOf (digits : Bytes) : ℤ := digits.foldl sizeStep 0

theorem unhex_nonneg {c : UInt8} (h : unhex c ≠ -1) : 0 ≤ unhex c := by
  unfold unhex at h ⊢
  split_ifs at h ⊢ with hdigit hupper hlower hcontrol
  · have hle : (0x30 : UInt8).toNat ≤ c.toNat := hdigit.1
    simp at hle
    omega
  · have hle : (0x41 : UInt8).toNat ≤ c.toNat := hupper.1
    simp at hle
    omega
  · have hle : (0x61 : UInt8).toNat ≤ c.toNat := hlower.1
    simp at hle
    omega
  · exact absurd rfl h
  · exact le_rfl

theorem le_foldl_sizeStep {n : ℤ} (hn : 0 ≤ n) {digits : Bytes} (h : ∀ c ∈ digits, unhex c ≠ -1) :
    n ≤ digits.foldl sizeStep n := by
  induction digits generalizing n with
  | nil => exact le_rfl
  | cons c digits ih =>
    have hc := unhex_nonneg (h c List.mem_cons_self)
    have hstep : n ≤ sizeStep n c := by
      unfold sizeStep
      omega
    exact hstep.trans (ih (hn.trans hstep) fun d hd => h d (List.mem_cons_of_mem _ hd))

def Parser.sizing (q : Parser) (n : ℕ) (size : ℤ) (s : State) : Parser :=
  { q.count n with contentLength := size, state := s }

theorem assertChunked_sizing {q : Parser} (h : q.flags.chunked = true) (n k : ℕ) (size : ℤ)
    (s : State) (rest : Step) : assertChunked ((q.sizing n size s).count k) rest = rest := if_pos h

theorem reads_digits {q : Parser} (hchunked : q.flags.chunked = true) {size : ℤ} (hsize : 0 ≤ size)
    {digits : Bytes} (hdigits : ∀ c ∈ digits, unhex c ≠ -1)
    (hsmall : digits.foldl sizeStep size < 2 ^ 63) {n : ℕ}
    (hnread : q.nread + (n + digits.length) ≤ HTTP_MAX_HEADER_SIZE) (u : U) :
    Reads strict f digits (q.sizing n size .chunkSize) u
      (q.sizing (n + digits.length) (digits.foldl sizeStep size) .chunkSize) u := by
  induction digits generalizing n size with
  | nil => exact .nil
  | cons c digits ih =>
    have hc := hdigits c List.mem_cons_self
    have hrest : ∀ d ∈ digits, unhex d ≠ -1 := fun d hd => hdigits d (List.mem_cons_of_mem _ hd)
    rw [List.length_cons] at hnread ⊢
    rw [List.foldl_cons] at hsmall ⊢
    have hnext : 0 ≤ sizeStep size c := by
      have := unhex_nonneg hc
      unfold sizeStep
      omega
    have hstep := lt_of_le_of_lt (le_foldl_sizeStep hnext hrest) hsmall
    have hcr : c ≠ CR := by
      rintro rfl
      exact hc (by decide)
    have hone : Reads strict f [c] (q.sizing n size .chunkSize) u
        (q.sizing (n + 1) (sizeStep size c) .chunkSize) u := by
      refine reads_plain rfl (by show q.nread + n < _; omega) rfl ?_
      rw [show (q.sizing n size .chunkSize).state = .chunkSize from rfl, switch, chunkSize,
        assertChunked_sizing hchunked, if_neg hcr, if_neg hc, addDigit, if_neg]
      · rfl
      · show ¬ (sizeStep size c < -2 ^ 63 ∨ 2 ^ 63 ≤ sizeStep size c)
        omega
    rw [show n + (digits.length + 1) = n + 1 + digits.length by omega]
    exact hone.append (ih hnext hrest hsmall (by omega))

theorem reads_parameters {q : Parser} (hchunked : q.flags.chunked = true) {size : ℤ} {l : Bytes}
    (hl : CR ∉ l) {n : ℕ} (hnread : q.nread + (n + l.length) ≤ HTTP_MAX_HEADER_SIZE) (u : U) :
    Reads strict f l (q.sizing n size .chunkParameters) u
      (q.sizing (n + l.length) size .chunkParameters) u := by
  induction l generalizing n with
  | nil => exact .nil
  | cons c l ih =>
    rw [List.mem_cons, not_or] at hl
    rw [List.length_cons] at hnread ⊢
    have hone : Reads strict f [c] (q.sizing n size .chunkParameters) u
        (q.sizing (n + 1) size .chunkParameters) u := by
      refine reads_plain rfl (by show q.nread + n < _; omega) rfl ?_
      rw [show (q.sizing n size .chunkParameters).state = .chunkParameters from rfl, switch,
        assertChunked_sizing hchunked, if_neg (Ne.symm hl.1)]
      rfl
    rw [show n + (l.length + 1) = n + 1 + l.length by omega]
    exact hone.append (ih hl.2 (by omega))

structure SizeLine where
  digits : Bytes
  /-- What follows the digits. -/
  extension : Bytes
  digits_ne_nil : digits ≠ []
  digits_hex : ∀ c ∈ digits, unhex c ≠ -1
  digits_small : sizeOf digits < 2 ^ 63
  extension_head : ∀ c ∈ extension.head?, c = 0x3b ∨ c = 0x20
  extension_line : CR ∉ extension

def SizeLine.bytes (l : SizeLine) : Bytes := l.digits ++ (l.extension ++ [CR, LF])

def Parser.sized (q : Parser) (size : ℤ) : Parser :=
  if size = 0 then
    { q with contentLength := size, flags.trailing := true, state := .headerFieldStart, nread := 0 }
  else { q with contentLength := size, state := .chunkData, nread := 0 }

theorem chunkSizeAlmostDone_eq {q : Parser} (hchunked : q.flags.chunked = true) :
    chunkSizeAlmostDone strict q LF = .next (q.sized q.contentLength) := by
  rw [chunkSizeAlmostDone, assertChunked, if_pos hchunked, strict_check_self]
  unfold Parser.sized
  dsimp only
  by_cases h : q.contentLength = 0
  · rw [if_pos h, if_pos h]
    rfl
  · rw [if_neg h, if_neg h]
    rfl

theorem reads_extension {q : Parser} (hchunked : q.flags.chunked = true) (l : SizeLine) (size : ℤ)
    {n : ℕ} (hnread : q.nread + (n + l.extension.length) ≤ HTTP_MAX_HEADER_SIZE) (u : U) :
    ∃ s, (s = .chunkSize ∨ s = .chunkParameters) ∧
      Reads strict f l.extension (q.sizing n size .chunkSize) u
        (q.sizing (n + l.extension.length) size s) u := by
  cases hext : l.extension with
  | nil => exact ⟨.chunkSize, .inl rfl, .nil⟩
  | cons c rest =>
    have hc : c = 0x3b ∨ c = 0x20 := l.extension_head c (by rw [hext]; rfl)
    have hrest : CR ∉ rest := fun h => l.extension_line (by rw [hext]; exact List.mem_cons_of_mem _ h)
    have hcr : c ≠ CR := by
      rcases hc with rfl | rfl
      · decide
      · decide
    have hhex : unhex c = -1 := by
      rcases hc with rfl | rfl
      · decide
      · decide
    rw [hext, List.length_cons] at hnread
    have hone : Reads strict f [c] (q.sizing n size .chunkSize) u
        (q.sizing (n + 1) size .chunkParameters) u := by
      refine reads_plain rfl (by show q.nread + n < _; omega) rfl ?_
      rw [show (q.sizing n size .chunkSize).state = .chunkSize from rfl, switch, chunkSize,
        assertChunked_sizing hchunked, if_neg hcr, if_pos hhex, if_pos hc]
      rfl
    refine ⟨.chunkParameters, .inr rfl, ?_⟩
    rw [List.length_cons, show n + (rest.length + 1) = n + 1 + rest.length by omega]
    exact hone.append (reads_parameters strict hchunked hrest (by omega) u)

theorem reads_sizeEnd {q : Parser} (hchunked : q.flags.chunked = true) (size : ℤ) {s : State}
    (hs : s = .chunkSize ∨ s = .chunkParameters) {n : ℕ}
    (hnread : q.nread + (n + 2) ≤ HTTP_MAX_HEADER_SIZE) (u : U) :
    Reads strict f [CR, LF] (q.sizing n size s) u (q.sized size) u := by
  have hcr : Reads strict f [CR] (q.sizing n size s) u
      (q.sizing (n + 1) size .chunkSizeAlmostDone) u := by
    refine reads_plain (by rcases hs with rfl | rfl <;> rfl) (by show q.nread + n < _; omega) rfl ?_
    rw [show (q.sizing n size s).state = s from rfl]
    rcases hs with rfl | rfl
    · rw [switch, chunkSize, assertChunked_sizing hchunked, if_pos rfl]
      rfl
    · rw [switch, assertChunked_sizing hchunked, if_pos rfl]
      rfl
  have hlf : Reads strict f [LF] (q.sizing (n + 1) size .chunkSizeAlmostDone) u
      (q.sized size) u := by
    refine reads_plain rfl (by show q.nread + (n + 1) < _; omega) ?_ ?_
    · unfold Parser.sized
      split_ifs <;> rfl
    · rw [show (q.sizing (n + 1) size .chunkSizeAlmostDone).state = .chunkSizeAlmostDone from rfl,
        switch, chunkSizeAlmostDone_eq strict (by exact hchunked)]
      rfl
  exact hcr.append hlf

/-- The line in front of a chunk is read. -/
theorem reads_sizeLine (l : SizeLine) {q : Parser} (hs : q.state = .chunkSizeStart)
    (hchunked : q.flags.chunked = true) (hfresh : q.nread = 0)
    (hnread : l.bytes.length ≤ HTTP_MAX_HEADER_SIZE) (u : U) :
    Reads strict f l.bytes q u (q.sized (sizeOf l.digits)) u := by
  obtain ⟨c, rest, hdigits⟩ := List.exists_cons_of_ne_nil l.digits_ne_nil
  have hc : unhex c ≠ -1 := l.digits_hex c (by rw [hdigits]; exact List.mem_cons_self)
  have hrest : ∀ d ∈ rest, unhex d ≠ -1 := fun d hd =>
    l.digits_hex d (by rw [hdigits]; exact List.mem_cons_of_mem _ hd)
  have hsize : sizeOf l.digits = rest.foldl sizeStep (unhex c) := by
    rw [sizeOf, hdigits, List.foldl_cons, sizeStep, Int.zero_mul, Int.zero_add]
  have hlength : l.bytes.length = 1 + rest.length + (l.extension.length + 2) := by
    simp only [SizeLine.bytes, hdigits, List.length_append, List.length_cons, List.length_nil]
    omega
  rw [hlength] at hnread
  have hone : Reads strict f [c] q u (q.sizing 1 (unhex c) .chunkSize) u := by
    refine reads_plain (by rw [hs]; rfl) (by omega) rfl ?_
    rw [hs, switch, chunkSizeStart, if_neg (by show ¬ q.nread + 1 ≠ 1; omega), assertChunked,
      if_pos (by exact hchunked), if_neg hc]
    rfl
  have hmore := reads_digits strict (f := f) hchunked (unhex_nonneg hc) hrest (n := 1)
    (by rw [← hsize]; exact l.digits_small) (by omega) u
  rw [← hsize] at hmore
  obtain ⟨s, hs', hext⟩ := reads_extension strict (f := f) hchunked l (sizeOf l.digits)
    (n := 1 + rest.length) (by omega) u
  have hend := reads_sizeEnd strict (f := f) hchunked (sizeOf l.digits) hs'
    (n := 1 + rest.length + l.extension.length) (by omega) u
  have hread := hone.append (hmore.append (hext.append hend))
  have hbytes : [c] ++ (rest ++ (l.extension ++ [CR, LF])) = l.bytes := by
    rw [SizeLine.bytes, hdigits]
    rfl
  rw [hbytes] at hread
  exact hread

structure Chunk where
  line : SizeLine
  data : Bytes
  data_ne_nil : data ≠ []
  size : sizeOf line.digits = data.length

def Chunk.bytes (c : Chunk) : Bytes := c.line.bytes ++ (c.data ++ [CR, LF])

structure BeforeChunk (q : Parser) : Prop where
  state : q.state = .chunkSizeStart
  chunked : q.flags.chunked = true
  nread : q.nread = 0

/-- A chunk is read, and its data is handed on. -/
theorem reads_chunk (hf : f.Lawful overlap) (c : Chunk) {q : Parser} (hq : BeforeChunk q)
    (hnread : c.line.bytes.length ≤ HTTP_MAX_HEADER_SIZE) (u : U) :
    Reads strict f c.bytes q u { q with contentLength := 0 } (hearBody f u c.data) := by
  have hsize : (c.data.length : ℤ) ≠ 0 := by
    intro h
    exact c.data_ne_nil (List.length_eq_zero_iff.mp (by omega))
  have hline := reads_sizeLine strict (f := f) c.line hq.state hq.chunked hq.nread hnread u
  rw [c.size, Parser.sized, if_neg hsize] at hline
  have hdata := reads_chunkData strict hf c.data_ne_nil (q :=
    { q with contentLength := c.data.length, state := .chunkData, nread := 0 }) rfl hq.chunked rfl
    [] u
  have hend := reads_chunkEnd strict (f := f) (q :=
    { q with contentLength := 0, state := .chunkDataAlmostDone, nread := 0 }) rfl hq.chunked
    (hearBody f u c.data)
  have hread := hline.append (hdata.append hend)
  rw [show ({ q with contentLength := 0 } : Parser) =
    { q with contentLength := 0, state := .chunkSizeStart, nread := 0 } by
      rw [← hq.state, ← hq.nread]]
  exact hread

theorem reads_chunks (hf : f.Lawful overlap) {chunks : List Chunk}
    (hnread : ∀ c ∈ chunks, c.line.bytes.length ≤ HTTP_MAX_HEADER_SIZE) {q : Parser}
    (hq : BeforeChunk q) (u : U) :
    ∃ n : ℤ, Reads strict f (chunks.flatMap Chunk.bytes) q u { q with contentLength := n }
      (hearBody f u (chunks.flatMap Chunk.data)) := by
  induction chunks generalizing q u with
  | nil => exact ⟨q.contentLength, .nil⟩
  | cons c chunks ih =>
    have hone := reads_chunk strict hf c hq (hnread c List.mem_cons_self) u
    obtain ⟨n, hmore⟩ := ih (fun c hc => hnread c (List.mem_cons_of_mem _ hc))
      (q := { q with contentLength := 0 }) ⟨hq.state, hq.chunked, hq.nread⟩ (hearBody f u c.data)
    rw [hearBody_append hf] at hmore
    exact ⟨n, hone.append hmore⟩

end NodeJS.HttpParser
