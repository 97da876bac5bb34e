import Mathlib.Data.List.Induction
import NodeJS.Buffer.Utf8
import NodeJS.Crypto.Decipher

/-! Plaintext as utf8 strings. The scan for an incomplete character at the end counts the lead
byte of a complete one twice, so that a byte behind the output is read. -/
namespace NodeJS.Crypto

open Lib.Utf8

variable {Ctx : Type}

/-- The bytes kept for the next call. -/
def Decipher.held (cipher : Decipher Ctx) : Bytes := cipher.incompleteUtf8.getD []

/-- The last character is there in full and has more than one byte. -/
def EndsMultiByte (s : Bytes) : Prop := ∃ w c, s = w ++ c ∧ Whole w ∧ IsChar c ∧ 2 ≤ c.length

/-- No output but an empty one makes what has been delivered end in a complete character of
several bytes. -/
def NeverEndsMultiByte (outs : List Bytes) : Prop :=
  ∀ pre out post, outs = pre ++ out :: post → out ≠ [] → ¬ EndsMultiByte (pre.flatten ++ out)

def outputs (evp : Evp Ctx) (cipher : Decipher Ctx) (calls : List UpdateCall) : List Bytes :=
  (decipherUpdates evp cipher calls).1.map Updated.out

/-- All that the library gives, the end of the context included. -/
def plaintext (evp : Evp Ctx) (cipher : Decipher Ctx) (calls : List UpdateCall) : Bytes :=
  (outputs evp cipher calls).flatten ++
    (decipherFinal evp (decipherUpdates evp cipher calls).2 (some .utf8)).1

/-- Updates and a `final` turn the plaintext into strings faithfully. -/
structure DecodesText (evp : Evp Ctx) (cipher : Decipher Ctx) (calls : List UpdateCall) : Prop where
  within : ∀ pre call post, calls = pre ++ call :: post →
    let before := (decipherUpdates evp cipher pre).2
    let out := (decipherUpdate evp before call).out
    out ≠ [] → lengthWithoutIncompleteUtf8 (before.held ++ out) ≤ (before.held ++ out).length
  encoded : ∀ pre post, calls = pre ++ post →
    (decipherUpdates evp cipher pre).1.flatMap Updated.read ++
      (decipherUpdates evp cipher pre).2.held = (outputs evp cipher pre).flatten
  decoded :
    (decipherUpdates evp cipher calls).1.flatMap (fun done => done.result.getD []) ++
      (decipherFinal evp (decipherUpdates evp cipher calls).2 (some .utf8)).2.1 =
        utf8Slice (plaintext evp cipher calls)

/-! ### The scan -/

/-- What the masks select. -/
theorem masks (c : UInt8) :
    (c &&& 0x80 = 0x00 ↔ announced c = some 1) ∧ (c &&& 0xC0 = 0x80 ↔ IsCont c) ∧
      (c &&& 0xE0 = 0xC0 ↔ announced c = some 2) ∧ (c &&& 0xF0 = 0xE0 ↔ announced c = some 3) ∧
        (c &&& 0xF8 = 0xF0 ↔ announced c = some 4) := by
  revert c
  exact forall_byte (by decide +kernel)

theorem lengthScan_cont {c : UInt8} (hc : IsCont c) (seen answer : ℕ) (reversed : Bytes) :
    lengthScan seen answer (c :: reversed) = lengthScan (seen + 1) (answer - 1) reversed := by
  obtain ⟨h1, h2, -⟩ := masks c
  have hnot : ¬ c &&& 0x80 = 0x00 := by
    rw [h1, announced_of_isCont hc]
    simp
  rw [lengthScan, if_neg hnot, if_pos (h2.mpr hc)]

theorem lengthScan_conts {p : Bytes} (hp : ∀ c ∈ p, IsCont c) (seen answer : ℕ)
    (reversed : Bytes) :
    lengthScan seen answer (p ++ reversed) =
      lengthScan (seen + p.length) (answer - p.length) reversed := by
  induction p generalizing seen answer with
  | nil => rfl
  | cons c p ih =>
    rw [List.cons_append, lengthScan_cont (hp c (by simp)), ih (fun x hx => hp x (by simp [hx]))]
    congr 1 <;> simp only [List.length_cons] <;> omega

theorem lengthScan_single {c : UInt8} (hc : announced c = some 1) (seen answer : ℕ)
    (reversed : Bytes) : lengthScan seen answer (c :: reversed) = answer := by
  rw [lengthScan, if_pos ((masks c).1.mpr hc)]

/-- Where the scan meets a lead byte of several bytes, the place after it is `answer`. -/
theorem lengthScan_lead {c : UInt8} {n : ℕ} (hc : announced c = some n) (hn : 2 ≤ n)
    (seen answer : ℕ) (reversed : Bytes) :
    lengthScan seen answer (c :: reversed) =
      if seen + 1 ≥ n then answer + n else answer - 1 := by
  obtain ⟨h1, h2, h3, h4, h5⟩ := masks c
  have hle := (announced_le hc).2
  have hcont : ¬ IsCont c := by
    intro h
    rw [announced_of_isCont h] at hc
    exact absurd hc (by simp)
  unfold lengthScan
  simp only [h1, h2, h3, h4, h5, hc, hcont, Option.some.injEq, if_false]
  split_ifs <;> omega

/-- The scan over whole characters and a part of one. -/
theorem lengthWithoutIncompleteUtf8_part {w p : Bytes} (hp : Partial p) (hne : p ≠ []) :
    lengthWithoutIncompleteUtf8 (w ++ p) = w.length := by
  obtain ⟨b, tail, rfl⟩ := List.exists_cons_of_ne_nil hne
  obtain ⟨n, hn, hlt⟩ := hp.announced
  obtain ⟨q, -, -, hcont⟩ := hp
  have hrev : (w ++ b :: tail).reverse = tail.reverse ++ b :: w.reverse := by simp
  unfold lengthWithoutIncompleteUtf8
  rw [hrev, lengthScan_conts (fun c hc => hcont c (by simp [List.mem_reverse.mp hc])),
    lengthScan_lead hn (by omega)]
  rw [if_neg (by simp only [List.length_reverse]; omega)]
  simp only [List.length_append, List.length_cons, List.length_reverse]
  omega

/-- The scan over a complete character at the end. -/
theorem lengthWithoutIncompleteUtf8_char {w c : Bytes} (hc : IsChar c) :
    lengthWithoutIncompleteUtf8 (w ++ c) =
      if 2 ≤ c.length then (w ++ c).length + 1 else (w ++ c).length := by
  obtain ⟨b, tail, rfl⟩ := List.exists_cons_of_ne_nil hc.ne_nil
  obtain ⟨hn, hcont⟩ := hc
  have hrev : (w ++ b :: tail).reverse = tail.reverse ++ b :: w.reverse := by simp
  unfold lengthWithoutIncompleteUtf8
  rw [hrev, lengthScan_conts (fun c hc => hcont c (List.mem_reverse.mp hc))]
  by_cases hnil : tail = []
  · subst hnil
    rw [lengthScan_single hn]
    simp
  · have hpos := List.length_pos_of_ne_nil hnil
    rw [lengthScan_lead hn (by omega), if_pos (by simp),
      if_pos (by simp only [List.length_cons]; omega)]
    simp only [List.length_append, List.length_cons, List.length_reverse]
    omega

/-- Whole characters in front do not matter for how a text ends. -/
theorem EndsMultiByte.append_iff {w v p : Bytes} (hw : Whole w) (hv : Whole v) (hp : Partial p)
    (hne : v ++ p ≠ []) : EndsMultiByte (w ++ (v ++ p)) ↔ EndsMultiByte (v ++ p) := by
  constructor
  · rintro ⟨u, c, he, hu, hc, h2⟩
    have hnil : p = [] := by
      apply (hw.append hv).eq_nil_of_part hp
      rw [List.append_assoc, he]
      exact hu.append hc.whole
    subst hnil
    rw [List.append_nil] at hne he ⊢
    obtain ⟨u', c', rfl, hu', hc'⟩ := hv.snoc hne
    rw [← List.append_assoc] at he
    rw [← IsChar.unique_last hc' hc he] at h2
    exact ⟨u', c', rfl, hu', hc', h2⟩
  · rintro ⟨u, c, he, hu, hc, h2⟩
    exact ⟨w ++ u, c, by rw [he, List.append_assoc], hw.append hu, hc, h2⟩

/-- The scan stays within its argument unless that ends in a complete character of several
bytes. -/
theorem lengthWithoutIncompleteUtf8_le_iff {v p : Bytes} (hv : Whole v) (hp : Partial p)
    (hne : v ++ p ≠ []) :
    (lengthWithoutIncompleteUtf8 (v ++ p) ≤ (v ++ p).length ↔ ¬ EndsMultiByte (v ++ p)) ∧
      (¬ EndsMultiByte (v ++ p) → lengthWithoutIncompleteUtf8 (v ++ p) = v.length) := by
  by_cases hnil : p = []
  · subst hnil
    rw [List.append_nil] at hne ⊢
    obtain ⟨w, c, rfl, hw, hc⟩ := hv.snoc hne
    rw [lengthWithoutIncompleteUtf8_char hc]
    have hends : EndsMultiByte (w ++ c) ↔ 2 ≤ c.length := by
      constructor
      · rintro ⟨w', c', he, hw', hc', h2⟩
        rwa [IsChar.unique_last hc hc' he]
      · intro h2
        exact ⟨w, c, rfl, hw, hc, h2⟩
    rw [hends]
    split_ifs with h2
    · exact ⟨⟨fun h => by omega, fun h => absurd h2 h⟩, fun h => absurd h2 h⟩
    · exact ⟨⟨fun _ => h2, fun _ => le_refl _⟩, fun _ => rfl⟩
  · rw [lengthWithoutIncompleteUtf8_part hp hnil]
    have hends : ¬ EndsMultiByte (v ++ p) := by
      rintro ⟨w, c, he, hw, hc, -⟩
      exact hnil (hv.eq_nil_of_part hp (he ▸ hw.append hc.whole))
    exact ⟨⟨fun _ => hends, fun _ => by simp⟩, fun _ => rfl⟩

/-! ### One update -/

theorem readMemory_eq {out : Bytes} {len : ℕ} (past : ℕ → UInt8) (h : len ≤ out.length) :
    readMemory out past len = out.take len := by
  apply List.ext_getElem
  · simp [readMemory, h]
  · intro i hi _
    have hlt : i < out.length := by
      simp only [readMemory, List.length_map, List.length_range] at hi
      omega
    simp [readMemory, List.getElem?_eq_getElem hlt]

theorem decipherInput_output (evp : Evp Ctx) (cipher : Decipher Ctx) (chunk : Chunk)
    (input : Option InputEncoding) :
    (decipherInput evp cipher chunk input).2.2.initialised = cipher.initialised ∧
      (decipherInput evp cipher chunk input).2.2.incompleteUtf8 = cipher.incompleteUtf8 := by
  unfold decipherInput hexInput
  split <;> dsimp only
  · split_ifs <;> exact ⟨rfl, rfl⟩
  · exact ⟨rfl, rfl⟩
  · exact ⟨rfl, rfl⟩

/-- An update with utf8 output leaves the object alone if nothing comes out, and puts what it
kept in front otherwise. -/
theorem decipherUpdate_utf8 (evp : Evp Ctx) {cipher : Decipher Ctx} {call : UpdateCall}
    (hi : cipher.initialised = true) (ho : call.output = some .utf8) :
    let done := decipherUpdate evp cipher call
    let out := cipher.held ++ done.out
    done.cipher.initialised = true ∧ done.result = some (utf8Slice done.read) ∧
      (done.out = [] → done.read = [] ∧ done.cipher.held = cipher.held) ∧
      (done.out ≠ [] →
        done.read = readMemory out call.past (lengthWithoutIncompleteUtf8 out) ∧
          done.cipher.held = out.drop (lengthWithoutIncompleteUtf8 out)) := by
  obtain ⟨hinit, hheld⟩ := decipherInput_output evp cipher call.chunk call.input
  rw [hi] at hinit
  dsimp only [decipherUpdate]
  simp only [hinit, if_true, decipherOutput, ho]
  split_ifs with hlen hlt
  · have hnil := List.length_eq_zero_iff.mp hlen
    simp [hnil, Decipher.held, hheld]
  · have hne := mt List.length_eq_zero_iff.mpr hlen
    simp [hne, Decipher.held, hheld, encodeString]
  · have hne := mt List.length_eq_zero_iff.mpr hlen
    simp only [Decipher.held, hheld] at hlt ⊢
    simp [hne, encodeString, List.drop_of_length_le (Nat.le_of_not_lt hlt)]

/-- The strings made so far are those of whole characters, and what is kept is a part of the
next one. -/
structure Carries (cipher : Decipher Ctx) (delivered read : Bytes) : Prop where
  initialised : cipher.initialised = true
  encoded : read ++ cipher.held = delivered
  whole : Whole read
  partly : Partial cipher.held

theorem Carries.nil (ctx : Ctx) (memory : UInt8) : Carries (decipherInit ctx memory) [] [] where
  initialised := rfl
  encoded := rfl
  whole := Whole.nil
  partly := ⟨[0], by simp, by decide, by simp⟩

section
variable {evp : Evp Ctx} {cipher : Decipher Ctx} {delivered read rest : Bytes} {call : UpdateCall}

/-- What an update works on, cut at the last character boundary. -/
theorem Carries.split (h : Carries cipher delivered read)
    (hw : Whole (delivered ++ (decipherUpdate evp cipher call).out ++ rest)) :
    ∃ v p, cipher.held ++ (decipherUpdate evp cipher call).out = v ++ p ∧ Whole v ∧ Partial p := by
  have htext : Whole (read ++ (cipher.held ++ (decipherUpdate evp cipher call).out ++ rest)) := by
    simpa only [← h.encoded, List.append_assoc] using hw
  exact (h.whole.of_append htext).split

/-- The scan reads past its argument exactly where the text delivered ends in a complete
character of several bytes. -/
theorem Carries.within_iff (h : Carries cipher delivered read)
    (hw : Whole (delivered ++ (decipherUpdate evp cipher call).out ++ rest))
    (hne : (decipherUpdate evp cipher call).out ≠ []) :
    lengthWithoutIncompleteUtf8 (cipher.held ++ (decipherUpdate evp cipher call).out) ≤
        (cipher.held ++ (decipherUpdate evp cipher call).out).length ↔
      ¬ EndsMultiByte (delivered ++ (decipherUpdate evp cipher call).out) := by
  obtain ⟨v, p, he, hv, hp⟩ := h.split hw
  have hne' : v ++ p ≠ [] := by
    rw [← he]
    simp [hne]
  have hends : EndsMultiByte (delivered ++ (decipherUpdate evp cipher call).out) ↔
      EndsMultiByte (v ++ p) := by
    rw [← h.encoded, List.append_assoc, he]
    exact EndsMultiByte.append_iff h.whole hv hp hne'
  rw [he, hends]
  exact (lengthWithoutIncompleteUtf8_le_iff hv hp hne').1

theorem Carries.update (h : Carries cipher delivered read) (ho : call.output = some .utf8)
    (hw : Whole (delivered ++ (decipherUpdate evp cipher call).out ++ rest))
    (hends : (decipherUpdate evp cipher call).out ≠ [] →
      ¬ EndsMultiByte (delivered ++ (decipherUpdate evp cipher call).out)) :
    Carries (decipherUpdate evp cipher call).cipher
      (delivered ++ (decipherUpdate evp cipher call).out)
      (read ++ (decipherUpdate evp cipher call).read) := by
  obtain ⟨hinit, -, hempty, hsome⟩ := decipherUpdate_utf8 evp h.initialised ho
  by_cases hnil : (decipherUpdate evp cipher call).out = []
  · obtain ⟨hread, hheld⟩ := hempty hnil
    rw [hnil, hread, List.append_nil, List.append_nil]
    exact ⟨hinit, by rw [hheld, h.encoded], h.whole, by rw [hheld]; exact h.partly⟩
  · obtain ⟨hread, hheld⟩ := hsome hnil
    obtain ⟨v, p, he, hv, hp⟩ := h.split hw
    have hne' : v ++ p ≠ [] := by
      rw [← he]
      simp [hnil]
    have hlen : lengthWithoutIncompleteUtf8 (v ++ p) = v.length := by
      apply (lengthWithoutIncompleteUtf8_le_iff hv hp hne').2
      intro hv'
      apply hends hnil
      rw [← h.encoded, List.append_assoc, he]
      exact (EndsMultiByte.append_iff h.whole hv hp hne').mpr hv'
    rw [he, hlen] at hread hheld
    rw [readMemory_eq _ (by simp), List.take_left] at hread
    rw [List.drop_left] at hheld
    refine ⟨hinit, ?_, ?_, ?_⟩
    · rw [hread, hheld, List.append_assoc, ← he, ← List.append_assoc, h.encoded]
    · rw [hread]
      exact h.whole.append hv
    · rw [hheld]
      exact hp

end

/-! ### All updates -/

theorem length_decipherUpdates (evp : Evp Ctx) (cipher : Decipher Ctx) (calls : List UpdateCall) :
    (decipherUpdates evp cipher calls).1.length = calls.length := by
  induction calls generalizing cipher with
  | nil => rfl
  | cons call calls ih =>
    simp only [decipherUpdates, List.length_cons]
    rw [ih]

theorem outputs_append (evp : Evp Ctx) (cipher : Decipher Ctx) (a b : List UpdateCall) :
    outputs evp cipher (a ++ b) =
      outputs evp cipher a ++ outputs evp (decipherUpdates evp cipher a).2 b := by
  unfold outputs
  rw [decipherUpdates_append, List.map_append]

theorem outputs_cons (evp : Evp Ctx) (cipher : Decipher Ctx) (call : UpdateCall)
    (calls : List UpdateCall) :
    outputs evp cipher (call :: calls) = (decipherUpdate evp cipher call).out ::
      outputs evp (decipherUpdate evp cipher call).cipher calls := by
  rfl

theorem outputs_snoc (evp : Evp Ctx) (cipher : Decipher Ctx) (pre : List UpdateCall)
    (call : UpdateCall) :
    (outputs evp cipher (pre ++ [call])).flatten = (outputs evp cipher pre).flatten ++
      (decipherUpdate evp (decipherUpdates evp cipher pre).2 call).out := by
  rw [outputs_append, outputs_cons]
  simp [outputs, decipherUpdates]

section
variable {evp : Evp Ctx} {ctx : Ctx} {memory : UInt8} {calls : List UpdateCall}
  (hutf8 : ∀ call ∈ calls, call.output = some .utf8)
  (hw : Whole (plaintext evp (decipherInit ctx memory) calls))
include hw

omit hw in
/-- The calls that lead to an output. -/
theorem exists_calls {pre post : List Bytes} {out : Bytes}
    (h : outputs evp (decipherInit ctx memory) calls = pre ++ out :: post) :
    ∃ pre' call post', calls = pre' ++ call :: post' ∧
      outputs evp (decipherInit ctx memory) pre' = pre ∧
        (decipherUpdate evp (decipherUpdates evp (decipherInit ctx memory) pre').2 call).out =
          out := by
  have hlen := congrArg List.length h
  simp only [outputs, List.length_map, length_decipherUpdates, List.length_append,
    List.length_cons] at hlen
  have hlt : pre.length < calls.length := by omega
  have hcalls : calls = calls.take pre.length ++ calls[pre.length] ::
      calls.drop (pre.length + 1) := by simp
  have hl := h
  rw [hcalls, outputs_append, outputs_cons] at hl
  have hlength : (outputs evp (decipherInit ctx memory) (calls.take pre.length)).length =
      pre.length := by
    simp only [outputs, List.length_map, length_decipherUpdates, List.length_take]
    omega
  obtain ⟨hpre, hrest⟩ := List.append_inj hl hlength
  obtain ⟨hout, -⟩ := List.cons.inj hrest
  exact ⟨_, _, _, hcalls, hpre, hout⟩

/-- What is delivered up to a call starts a text of whole characters. -/
theorem whole_split {pre post : List UpdateCall} {call : UpdateCall}
    (h : calls = pre ++ call :: post) :
    ∃ rest, Whole ((outputs evp (decipherInit ctx memory) pre).flatten ++
      (decipherUpdate evp (decipherUpdates evp (decipherInit ctx memory) pre).2 call).out ++
        rest) := by
  rw [plaintext, h, outputs_append, outputs_cons, List.flatten_append, List.flatten_cons,
    ← List.append_assoc, List.append_assoc (_ ++ _)] at hw
  exact ⟨_, hw⟩

include hutf8

/-- If every call keeps within its output, the object carries the stream all along. -/
theorem carries_of_fine
    (hfine : ∀ pre call post, calls = pre ++ call :: post →
      Carries (decipherUpdates evp (decipherInit ctx memory) pre).2
        (outputs evp (decipherInit ctx memory) pre).flatten
        ((decipherUpdates evp (decipherInit ctx memory) pre).1.flatMap Updated.read) →
      let out := (decipherUpdate evp (decipherUpdates evp (decipherInit ctx memory) pre).2 call).out
      out ≠ [] → ¬ EndsMultiByte ((outputs evp (decipherInit ctx memory) pre).flatten ++ out))
    (pre post : List UpdateCall) (h : calls = pre ++ post) :
    Carries (decipherUpdates evp (decipherInit ctx memory) pre).2
      (outputs evp (decipherInit ctx memory) pre).flatten
      ((decipherUpdates evp (decipherInit ctx memory) pre).1.flatMap Updated.read) := by
  induction pre using List.reverseRecOn generalizing post with
  | nil => exact Carries.nil ctx memory
  | append_singleton pre call ih =>
    rw [List.append_assoc, List.singleton_append] at h
    have hpre := ih _ h
    obtain ⟨rest, hrest⟩ := whole_split hw h
    have hnext := hpre.update (hutf8 call (by simp [h])) hrest (hfine pre call post h hpre)
    rw [outputs_snoc, decipherUpdates_snoc]
    simpa using hnext

omit hutf8 hw in
/-- The strings, joined, when the object carries the stream all along. -/
theorem results_of_carries (hutf8 : ∀ call ∈ calls, call.output = some .utf8)
    (hc : ∀ pre post, calls = pre ++ post →
      Carries (decipherUpdates evp (decipherInit ctx memory) pre).2
        (outputs evp (decipherInit ctx memory) pre).flatten
        ((decipherUpdates evp (decipherInit ctx memory) pre).1.flatMap Updated.read))
    (pre post : List UpdateCall) (h : calls = pre ++ post) :
    (decipherUpdates evp (decipherInit ctx memory) pre).1.flatMap (fun done => done.result.getD [])
      = utf8Slice ((decipherUpdates evp (decipherInit ctx memory) pre).1.flatMap Updated.read) := by
  induction pre using List.reverseRecOn generalizing post with
  | nil => rfl
  | append_singleton pre call ih =>
    rw [List.append_assoc, List.singleton_append] at h
    have hpre := hc pre _ h
    obtain ⟨-, hresult, -, -⟩ := decipherUpdate_utf8 evp hpre.initialised (hutf8 call (by simp [h]))
    rw [decipherUpdates_snoc, List.flatMap_append, List.flatMap_append, ih _ h,
      utf8Slice_append hpre.whole]
    simp [hresult]

end

/-- The end of the context completes the text. -/
theorem Carries.final {evp : Evp Ctx} {cipher : Decipher Ctx} {delivered read : Bytes}
    (h : Carries cipher delivered read)
    (hw : Whole (delivered ++ (decipherFinal evp cipher (some .utf8)).1)) :
    utf8Slice read ++ (decipherFinal evp cipher (some .utf8)).2.1 =
      utf8Slice (delivered ++ (decipherFinal evp cipher (some .utf8)).1) := by
  have hinit := h.initialised
  have hsplit : delivered ++ (decipherFinal evp cipher (some .utf8)).1 =
      read ++ (cipher.held ++ (decipherFinal evp cipher (some .utf8)).1) := by
    rw [← h.encoded, List.append_assoc]
  rw [hsplit, utf8Slice_append h.whole]
  congr 1
  rw [hsplit] at hw
  have hrest := h.whole.of_append hw
  by_cases hlen : (evp.cipherFinal cipher.ctx).length = 0
  · have hnil := List.length_eq_zero_iff.mp hlen
    simp only [decipherFinal, hinit, if_true, hnil, List.length_nil, List.append_nil] at hrest ⊢
    rw [Whole.eq_nil_of_part Whole.nil h.partly hrest]
    rfl
  · unfold Decipher.held
    cases hheld : cipher.incompleteUtf8 <;>
      simp [decipherFinal, hinit, hlen, hheld, encodeString]

/-- Updates and a `final` with utf8 output turn a plaintext of whole characters into strings
faithfully exactly when no update ends it, for the time being, with a complete character of
several bytes. -/
theorem decodesText_iff (evp : Evp Ctx) (ctx : Ctx) (memory : UInt8) (calls : List UpdateCall)
    (hutf8 : ∀ call ∈ calls, call.output = some .utf8)
    (hw : Whole (plaintext evp (decipherInit ctx memory) calls)) :
    DecodesText evp (decipherInit ctx memory) calls ↔
      NeverEndsMultiByte (outputs evp (decipherInit ctx memory) calls) := by
  constructor
  · intro h pre out post he hne
    have hc := carries_of_fine hutf8 hw (fun pre call post hcalls hpre hne => by
      obtain ⟨rest, hrest⟩ := whole_split hw hcalls
      exact (hpre.within_iff hrest hne).mp (h.within pre call post hcalls hne))
    obtain ⟨pre', call, post', hcalls, rfl, rfl⟩ := exists_calls he
    obtain ⟨rest, hrest⟩ := whole_split hw hcalls
    exact ((hc pre' _ hcalls).within_iff hrest hne).mp (h.within pre' call post' hcalls hne)
  · intro h
    have hnever : ∀ pre call post, calls = pre ++ call :: post →
        let out :=
          (decipherUpdate evp (decipherUpdates evp (decipherInit ctx memory) pre).2 call).out
        out ≠ [] → ¬ EndsMultiByte ((outputs evp (decipherInit ctx memory) pre).flatten ++ out) := by
      intro pre call post hcalls out hne
      have hout := outputs_append evp (decipherInit ctx memory) pre (call :: post)
      rw [← hcalls, outputs_cons] at hout
      exact h _ _ _ hout hne
    have hc := carries_of_fine hutf8 hw (fun pre call post hcalls _ => hnever pre call post hcalls)
    have hcalls : calls = calls ++ [] := (List.append_nil calls).symm
    refine ⟨?_, ?_, ?_⟩
    · intro pre call post he before out hne
      obtain ⟨rest, hrest⟩ := whole_split hw he
      exact ((hc pre _ he).within_iff hrest hne).mpr (hnever pre call post he hne)
    · intro pre post he
      exact (hc pre post he).encoded
    · rw [results_of_carries hutf8 hc calls [] hcalls]
      exact (hc calls [] hcalls).final hw

/-- An `update` with a Buffer, nothing but zeros behind its output. -/
def bufferCall (data : Bytes) : UpdateCall := ⟨.buffer data, none, some .utf8, fun _ => 0⟩

/-- A letter of two bytes cut in the middle, and a character of ASCII after it. -/
theorem decodesText_iff_cut :
    DecodesText streamCipher (decipherInit [0x5A, 0x3C, 0x77] 0)
        [bufferCall [0x99], bufferCall [0x95, 0x56]] ↔
      NeverEndsMultiByte (outputs streamCipher (decipherInit [0x5A, 0x3C, 0x77] 0)
        [bufferCall [0x99], bufferCall [0x95, 0x56]]) :=
  decodesText_iff streamCipher [0x5A, 0x3C, 0x77] 0 _ (by simp [bufferCall])
    ⟨[[0xC3, 0xA9], [0x21]], by decide, by decide +kernel⟩

/-- The same letter in one piece. -/
theorem not_decodesText_char :
    Whole (plaintext streamCipher (decipherInit [0x5A, 0x3C] 0) [bufferCall [0x99, 0x95]]) ∧
      ¬ DecodesText streamCipher (decipherInit [0x5A, 0x3C] 0) [bufferCall [0x99, 0x95]] := by
  constructor
  · exact ⟨[[0xC3, 0xA9]], by decide, by decide +kernel⟩
  · intro h
    have hle := h.within [] (bufferCall [0x99, 0x95]) [] rfl (by decide)
    exact absurd hle (by decide)

end NodeJS.Crypto
