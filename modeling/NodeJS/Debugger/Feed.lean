import NodeJS.Debugger.Protocol
import Mathlib.Tactic.IntervalCases

/-! Serialized requests read by another `Protocol`, in chunks cut anywhere. -/
namespace NodeJS.Debugger
open JSString (slice slice_nat)

/-! ### Text -/

theorem CRLF_twice : CRLF ++ CRLF = [0x0d, 0x0a, 0x0d, 0x0a] := by decide

/-- The end of the headers is found where it is. -/
theorem indexOf_end {a : JSString} (h : 0x0d ∉ a) (b : JSString) :
    indexOf (CRLF ++ CRLF) (a ++ (CRLF ++ CRLF ++ b)) = some a.length := by
  rw [CRLF_twice]
  induction a with
  | nil => simp [indexOf]
  | cons c a ih =>
    rw [List.mem_cons, not_or] at h
    have hc : (0x0d == c) = false := by simpa using h.1
    rw [List.cons_append, indexOf, ih h.2, if_neg (by simp [List.isPrefixOf, hc])]
    rfl

/-- It is not found before it is there. -/
theorem indexOf_none {a : JSString} (h : 0x0d ∉ a) {k : ℕ} (hk : k < 4) :
    indexOf (CRLF ++ CRLF) (a ++ (CRLF ++ CRLF).take k) = none := by
  rw [CRLF_twice]
  induction a with
  | nil =>
    interval_cases k
    · decide
    · decide
    · decide
    · decide
  | cons c a ih =>
    rw [List.mem_cons, not_or] at h
    have hc : (0x0d == c) = false := by simpa using h.1
    rw [List.cons_append, indexOf, ih h.2, if_neg (by simp [List.isPrefixOf, hc])]
    rfl

theorem splitLines_one (line : JSString) {s : JSString} (h : 0x0d ∉ s) :
    splitLines line s = [line ++ s] := by
  induction line, s using splitLines.induct with
  | case1 line => simp [splitLines]
  | case2 line c => rw [splitLines]
  | case3 line c d s hcd ih => exact absurd (hcd.1 ▸ List.mem_cons_self) h
  | case4 line c d s hcd ih =>
    rw [List.mem_cons, not_or] at h
    rw [splitLines, if_neg hcd, ih h.2]
    simp

theorem cutColon_none {s : JSString} (h : 0x3a ∉ s) : cutColon s = none := by
  induction s with
  | nil => rfl
  | cons c s ih =>
    rw [List.mem_cons, not_or] at h
    unfold cutColon
    split
    · rename_i heq
      exact absurd (List.cons.inj heq).1.symm h.1
    · rename_i heq
      obtain ⟨rfl, rfl⟩ := List.cons.inj heq
      rw [ih h.2]
      rfl
    · rfl

theorem cutColon_append {a : JSString} (h : 0x3a ∉ a) (s : JSString) :
    cutColon (a ++ 0x3a :: 0x20 :: s) = some (a, s.dropWhile (· = 0x20)) := by
  induction a with
  | nil => rfl
  | cons c a ih =>
    rw [List.mem_cons, not_or] at h
    rw [List.cons_append]
    unfold cutColon
    split
    · rename_i heq
      exact absurd (List.cons.inj heq).1.symm h.1
    · rename_i heq
      obtain ⟨rfl, rfl⟩ := List.cons.inj heq
      rw [ih h.2]
      rfl
    · rename_i heq
      cases heq

/-! ### Numerals -/

theorem digitValue_unit : ∀ d < 10,
    digitValue (if d < 10 then d + 0x30 else d - 10 + 0x61).toUInt16 = some d := by decide

theorem readDigits_numeral (n : ℕ) : readDigits (numeral 10 n) = some n := by
  unfold numeral readDigits
  split_ifs with hn h h
  · exact absurd h (by decide)
  · rw [hn]
    decide
  · rw [List.map_eq_nil_iff, List.reverse_eq_nil_iff, Nat.digits_eq_nil_iff_eq_zero] at h
    exact absurd h hn
  · have hread : ∀ ds : List ℕ, (∀ d ∈ ds, d < 10) → (ds.map fun d =>
        (if d < 10 then d + 0x30 else d - 10 + 0x61).toUInt16).mapM digitValue = some ds := by
      intro ds
      induction ds with
      | nil => exact fun _ => rfl
      | cons d ds ih =>
        intro hds
        rw [List.map_cons, List.mapM_cons, digitValue_unit d (hds d (by simp)),
          ih fun d hd => hds d (by simp [hd])]
        rfl
    rw [hread _ fun d hd => Nat.digits_lt_base (by decide) (List.mem_reverse.mp hd), Option.map_some,
      List.reverse_reverse, Nat.ofDigits_digits]

theorem numeral_digit {n : ℕ} {c : UInt16} (hc : c ∈ numeral 10 n) : 0x30 ≤ c ∧ c ≤ 0x39 := by
  have hunit : ∀ d < 10, (0x30 : UInt16) ≤ (if d < 10 then d + 0x30 else d - 10 + 0x61).toUInt16 ∧
      (if d < 10 then d + 0x30 else d - 10 + 0x61).toUInt16 ≤ 0x39 := by decide
  unfold numeral at hc
  split_ifs at hc
  · obtain rfl := List.mem_singleton.mp hc
    decide
  · obtain ⟨d, hd, rfl⟩ := List.mem_map.mp hc
    exact hunit d (Nat.digits_lt_base (by decide) (List.mem_reverse.mp hd))

theorem numeral_ne_nil (n : ℕ) : numeral 10 n ≠ [] := by
  intro h
  have hread := readDigits_numeral n
  rw [h] at hread
  cases hread

theorem dropWhile_eq_self {p : UInt16 → Bool} {s : JSString} (h : ∀ c ∈ s, p c = false) :
    s.dropWhile p = s := by
  cases s with
  | nil => rfl
  | cons c s => rw [List.dropWhile_cons_of_neg (by simp [h c])]

theorem toNumber_numeral (n : ℕ) : toNumber (some (numeral 10 n)) = some (n : ℤ) := by
  have hread := readDigits_numeral n
  have hne := numeral_ne_nil n
  have hdigit : ∀ c ∈ numeral 10 n, (0x30 : UInt16) ≤ c ∧ c ≤ 0x39 := fun c => numeral_digit
  generalize numeral 10 n = s at hread hne hdigit
  have hblank : ∀ c ∈ s, (c = 0x20 || c = 0x09 || c = 0x0a || c = 0x0d) = false := by
    intro c hc
    simp only [Bool.or_eq_false_iff, decide_eq_false_iff_not]
    refine ⟨⟨⟨?_, ?_⟩, ?_⟩, ?_⟩
    all_goals
      rintro rfl
      exact absurd (hdigit _ hc) (by decide)
  have htrim : ((s.dropWhile fun c => c = 0x20 || c = 0x09 || c = 0x0a || c = 0x0d).reverse.dropWhile
      fun c => c = 0x20 || c = 0x09 || c = 0x0a || c = 0x0d).reverse = s := by
    rw [dropWhile_eq_self hblank,
      dropWhile_eq_self fun c hc => hblank c (List.mem_reverse.mp hc), List.reverse_reverse]
  unfold toNumber
  dsimp only
  rw [htrim]
  split
  · exact absurd rfl hne
  · exact absurd (hdigit 0x2d (by simp)) (by decide)
  · exact absurd (hdigit 0x2b (by simp)) (by decide)
  · rw [hread]
    rfl

/-! ### Reading one message -/

section
variable {α : Type} (json : Json α)

def contentLine (v : α) : JSString :=
  js "Content-Length: " ++ numeral 10 (json.stringify v).length

def bodyStart (v : α) : ℕ := (contentLine json v).length + 4

theorem frame_eq (v : α) :
    frame json v = contentLine json v ++ (CRLF ++ CRLF ++ json.stringify v) := by
  unfold frame contentLine
  simp only [List.append_assoc]

theorem length_frame (v : α) :
    (frame json v).length = bodyStart json v + (json.stringify v).length := by
  rw [frame_eq]
  simp only [List.length_append, bodyStart]
  have : CRLF.length = 2 := by decide
  omega

theorem drop_bodyStart (v : α) (rest : JSString) :
    (frame json v ++ rest).drop (bodyStart json v) = json.stringify v ++ rest := by
  have hlen : bodyStart json v = (contentLine json v ++ (CRLF ++ CRLF)).length := by
    rw [List.length_append]
    rfl
  rw [frame_eq, ← List.append_assoc, List.append_assoc, hlen, List.drop_left]

theorem contentLine_clear (v : α) : 0x0d ∉ contentLine json v := by
  intro h
  rcases List.mem_append.mp h with h | h
  · revert h
    decide
  · exact absurd (numeral_digit h) (by decide)

theorem splitField_contentLine (v : α) :
    splitField (contentLine json v) =
      (js "Content-Length", some (numeral 10 (json.stringify v).length)) := by
  have hcolon : ∀ n, 0x3a ∉ numeral 10 n := fun n h => absurd (numeral_digit h) (by decide)
  have hspace : ∀ n, (numeral 10 n).dropWhile (· = 0x20) = numeral 10 n := by
    refine fun n => dropWhile_eq_self fun c hc => ?_
    rw [decide_eq_false_iff_not]
    rintro rfl
    exact absurd (numeral_digit hc) (by decide)
  have hline : contentLine json v =
      js "Content-Length" ++ 0x3a :: 0x20 :: numeral 10 (json.stringify v).length := rfl
  unfold splitField
  rw [hline, cutColon_append (by decide), hspace]
  dsimp only
  rw [cutColon_none (hcolon _)]

/-- The headers of a message that is there up to its body. -/
theorem readHeaders_frame {p : Protocol} {v : α} {x : JSString}
    (h : p.raw = contentLine json v ++ (CRLF ++ CRLF ++ x)) :
    p.readHeaders = { p with
      headers := p.headers ++
        [(js "Content-Length", some (numeral 10 (json.stringify v).length))]
      contentLength := some ((json.stringify v).length : ℤ)
      bodyStartIndex := bodyStart json v
      state := .body } := by
  have hclear := contentLine_clear json v
  have hslice : slice p.raw 0 (contentLine json v).length = contentLine json v := by
    rw [h, show (0 : ℤ) = ((0 : ℕ) : ℤ) from rfl, slice_nat, List.take_left, List.drop_zero]
  unfold Protocol.readHeaders
  rw [h, indexOf_end hclear, ← h]
  dsimp only
  rw [hslice, splitLines_one [] hclear, List.nil_append, List.map_singleton,
    splitField_contentLine]
  have hget : ∀ headers value, getHeader (headers ++ [(js "Content-Length", value)])
      (js "Content-Length") = value := by
    intro headers value
    simp [getHeader, List.findRev?_eq_find?_reverse]
  rw [hget, toNumber_numeral]
  rfl

/-! ### Reading any number of them -/

def stream (vs : List α) : JSString := vs.flatMap (frame json)

/-- A protocol that has part of the messages `vs` in its buffer, and `rest` still to come. -/
structure Reading (p : Protocol) (rest : JSString) (vs : List α) : Prop where
  text : p.raw ++ rest = stream json vs
  state : p.state = .headers ∨ (p.state = .body ∧ ∃ v vs', vs = v :: vs' ∧
    p.contentLength = some ((json.stringify v).length : ℤ) ∧ p.bodyStartIndex = bodyStart json v ∧
    bodyStart json v ≤ p.raw.length)

def Waiting (p : Protocol) (vs : List α) : Prop :=
  ∀ v vs', vs = v :: vs' → p.raw.length < (frame json v).length

/-- The first step of `execute`, after the chunk was added. -/
def scan (p : Protocol) : Protocol :=
  match p.state with
  | .headers => p.readHeaders
  | .body => p

variable {json} {p : Protocol} {rest : JSString} {v : α} {vs : List α}

theorem stream_cons (v : α) (vs : List α) :
    stream json (v :: vs) = frame json v ++ stream json vs := List.flatMap_cons ..

/-- Without the whole header nothing happens. -/
theorem Reading.scan_short (h : Reading json p rest (v :: vs))
    (hlen : p.raw.length < bodyStart json v) : scan p = p ∧ p.state = .headers := by
  have hstate : p.state = .headers := by
    rcases h.state with hs | ⟨_, w, ws, hw, _, _, hle⟩
    · exact hs
    · obtain ⟨rfl, rfl⟩ := List.cons.inj hw
      omega
  have htext : p.raw ++ rest = contentLine json v ++
      (CRLF ++ CRLF ++ (json.stringify v ++ stream json vs)) := by
    rw [h.text, stream_cons, frame_eq]
    simp only [List.append_assoc]
  have hraw : p.raw = (contentLine json v).take p.raw.length ++
      (CRLF ++ CRLF).take (p.raw.length - (contentLine json v).length) := by
    calc p.raw = (p.raw ++ rest).take p.raw.length := List.take_left.symm
      _ = _ := by
        rw [htext, List.take_append, List.take_append_of_le_length]
        show _ ≤ 4
        unfold bodyStart at hlen
        omega
  have hclear : 0x0d ∉ (contentLine json v).take p.raw.length :=
    fun hc => contentLine_clear json v (List.mem_of_mem_take hc)
  have hnone : indexOf (CRLF ++ CRLF) p.raw = none := by
    rw [hraw]
    apply indexOf_none hclear
    unfold bodyStart at hlen
    omega
  unfold scan Protocol.readHeaders
  rw [hstate, hnone]
  exact ⟨rfl, rfl⟩

/-- With the whole header the protocol knows where the body is. -/
theorem Reading.scan_long (h : Reading json p rest (v :: vs))
    (hlen : bodyStart json v ≤ p.raw.length) :
    (scan p).raw = p.raw ∧ (scan p).state = .body ∧
      (scan p).contentLength = some ((json.stringify v).length : ℤ) ∧
      (scan p).bodyStartIndex = bodyStart json v := by
  rcases h.state with hs | ⟨hs, w, ws, hw, hcontent, hstart, _⟩
  · have htext : p.raw ++ rest = (contentLine json v ++ (CRLF ++ CRLF)) ++
        (json.stringify v ++ stream json vs) := by
      rw [h.text, stream_cons, frame_eq]
      simp only [List.append_assoc]
    have hraw : p.raw = contentLine json v ++ (CRLF ++ CRLF ++
        (json.stringify v ++ stream json vs).take (p.raw.length - bodyStart json v)) := by
      calc p.raw = (p.raw ++ rest).take p.raw.length := List.take_left.symm
        _ = _ := by
          have hstart : (contentLine json v ++ (CRLF ++ CRLF)).length = bodyStart json v := by
            rw [List.length_append]
            rfl
          rw [htext, List.take_append, List.take_of_length_le (by omega), hstart]
          simp only [List.append_assoc]
    unfold scan
    rw [hs]
    dsimp only
    rw [readHeaders_frame json hraw]
    exact ⟨rfl, rfl, rfl, rfl⟩
  · obtain ⟨rfl, rfl⟩ := List.cons.inj hw
    unfold scan
    rw [hs]
    exact ⟨rfl, hs, hcontent, hstart⟩

theorem execute_succ (stack : ℕ) (p : Protocol) (d : JSString) :
    execute json (stack + 1) p d =
      let p := scan { p with raw := p.raw ++ d }
      if p.complete then
        let text := slice p.raw p.bodyStartIndex p.bodyEnd
        match if text = [] then some json.empty else json.parse text with
        | none => ⟨[], p, some .syntaxError⟩
        | some body =>
          let later := execute json stack (p.renew (slice p.raw p.bodyEnd p.raw.length)) []
          ⟨⟨p.raw, p.headers, body⟩ :: later.responses, later.protocol, later.exc⟩
      else ⟨[], p, none⟩ := rfl

/-- Whether the body is complete is whether the whole message is there. -/
theorem complete_iff {q : Protocol} (hstate : q.state = .body)
    (hcontent : q.contentLength = some ((json.stringify v).length : ℤ))
    (hstart : q.bodyStartIndex = bodyStart json v) :
    q.complete = true ↔ (frame json v).length ≤ q.raw.length := by
  unfold Protocol.complete
  rw [hstate, hcontent, hstart, length_frame]
  simp only [decide_true, Bool.true_and, decide_eq_true_eq]
  omega

/-- A message that is there, and what follows it in the buffer. -/
theorem slices_frame {q : Protocol} (hcontent : q.contentLength = some ((json.stringify v).length : ℤ))
    (hstart : q.bodyStartIndex = bodyStart json v) {surplus : JSString}
    (hraw : q.raw = frame json v ++ surplus) :
    slice q.raw q.bodyStartIndex q.bodyEnd = json.stringify v ∧
      slice q.raw q.bodyEnd q.raw.length = surplus := by
  have hend : q.bodyEnd = ((frame json v).length : ℕ) := by
    unfold Protocol.bodyEnd
    rw [hcontent, hstart, length_frame]
    simp
  rw [hend, slice_nat, slice_nat, List.take_length, hraw, List.take_left, List.drop_left, hstart]
  have hdrop := drop_bodyStart json v []
  rw [List.append_nil, List.append_nil] at hdrop
  exact ⟨hdrop, rfl⟩

theorem stringify_ne_nil (hjson : json.Lawful) (v : α) : json.stringify v ≠ [] := by
  intro h
  have hparse := hjson.parse_stringify v
  rw [h, hjson.parse_nil] at hparse
  cases hparse

/-- What a call of `execute` read, of the messages `vs`: all those that are there. -/
def Reads (json : Json α) (o : Outcome α) (rest : JSString) (vs : List α) : Prop :=
  ∃ n, o.exc = none ∧ o.responses.map (·.body) = vs.take n ∧
    Reading json o.protocol rest (vs.drop n) ∧ Waiting json o.protocol (vs.drop n)

theorem reads_none {stack : ℕ} {d : JSString}
    (hc : (scan { p with raw := p.raw ++ d }).complete = false)
    (hread : Reading json (scan { p with raw := p.raw ++ d }) rest vs)
    (hwait : Waiting json (scan { p with raw := p.raw ++ d }) vs) :
    Reads json (execute json (stack + 1) p d) rest vs := by
  have hrun : execute json (stack + 1) p d = ⟨[], scan { p with raw := p.raw ++ d }, none⟩ := by
    rw [execute_succ]
    dsimp only
    rw [hc]
    rfl
  rw [hrun]
  exact ⟨0, rfl, rfl, hread, hwait⟩

theorem execute_complete (hjson : json.Lawful) {stack : ℕ} {d : JSString} {q : Protocol}
    (hq : q = scan { p with raw := p.raw ++ d }) (hc : q.complete = true)
    (hcontent : q.contentLength = some ((json.stringify v).length : ℤ))
    (hstart : q.bodyStartIndex = bodyStart json v) {surplus : JSString}
    (hraw : q.raw = frame json v ++ surplus) :
    execute json (stack + 1) p d =
      ⟨⟨q.raw, q.headers, v⟩ :: (execute json stack (q.renew surplus) []).responses,
        (execute json stack (q.renew surplus) []).protocol,
        (execute json stack (q.renew surplus) []).exc⟩ := by
  obtain ⟨hbody, hsurplus⟩ := slices_frame hcontent hstart hraw
  rw [execute_succ, ← hq]
  dsimp only
  rw [if_pos hc, hbody, hsurplus, if_neg (stringify_ne_nil hjson v), hjson.parse_stringify]

/-- A call of `execute` reads all messages that are there. -/
theorem Reading.execute_reads (hjson : json.Lawful) {stack : ℕ} {d : JSString}
    (h : Reading json { p with raw := p.raw ++ d } rest vs) (hstack : vs.length < stack) :
    Reads json (execute json stack p d) rest vs := by
  obtain ⟨stack, rfl⟩ := Nat.exists_eq_succ_of_ne_zero (Nat.ne_of_gt (Nat.zero_lt_of_lt hstack))
  induction vs generalizing p d stack with
  | nil =>
    have hstate : p.state = .headers := by
      rcases h.state with hs | ⟨_, v, vs, hvs, _⟩
      · exact hs
      · cases hvs
    obtain ⟨hraw, -⟩ := List.append_eq_nil_iff.mp h.text
    have hscan : scan { p with raw := p.raw ++ d } = { p with raw := p.raw ++ d } := by
      unfold scan Protocol.readHeaders
      dsimp only at hraw ⊢
      rw [hstate, hraw]
      rfl
    refine reads_none ?_ ?_ ?_
    · rw [hscan]
      simp [Protocol.complete, hstate]
    · rw [hscan]
      exact h
    · intro v vs hvs
      cases hvs
  | cons v vs ih =>
    let q := scan { p with raw := p.raw ++ d }
    rcases lt_or_ge (p.raw ++ d).length (bodyStart json v) with hshort | hlong
    · obtain ⟨hscan, hstate⟩ := h.scan_short hshort
      refine reads_none ?_ ?_ ?_
      · rw [hscan]
        unfold Protocol.complete
        rw [hstate]
        rfl
      · rw [hscan]
        exact h
      · rw [hscan]
        intro w ws hw
        obtain ⟨rfl, rfl⟩ := List.cons.inj hw
        rw [length_frame]
        exact Nat.lt_add_right _ hshort
    · obtain ⟨hraw, hstate, hcontent, hstart⟩ := h.scan_long hlong
      have hread : Reading json q rest (v :: vs) :=
        ⟨hraw.symm ▸ h.text, Or.inr ⟨hstate, v, vs, rfl, hcontent, hstart, hraw.symm ▸ hlong⟩⟩
      have hcomplete := complete_iff hstate hcontent hstart
      rcases Bool.eq_false_or_eq_true q.complete with hc | hc
      · -- the message is there, and `execute` goes on with what follows it
        obtain ⟨surplus, hsurplus⟩ : ∃ surplus, q.raw = frame json v ++ surplus := by
          refine ⟨q.raw.drop (frame json v).length, ?_⟩
          have htake : q.raw.take (frame json v).length = frame json v := by
            have hlong : (q.raw ++ rest).take (frame json v).length = q.raw.take (frame json v).length :=
              List.take_append_of_le_length (hcomplete.mp hc)
            rw [← hlong, hread.text, stream_cons, List.take_left]
          exact (List.take_append_drop _ _).symm.trans (congrArg (· ++ _) htake)
        have hnext : Reading json
            { q.renew surplus with raw := (q.renew surplus).raw ++ [] } rest vs := by
          refine ⟨?_, Or.inl rfl⟩
          have htext := hread.text
          rw [hsurplus, stream_cons, List.append_assoc, List.append_cancel_left_eq] at htext
          rw [List.append_nil]
          exact htext
        have hroom : vs.length < stack := Nat.lt_of_succ_lt_succ hstack
        obtain ⟨stack, rfl⟩ :=
          Nat.exists_eq_succ_of_ne_zero (Nat.ne_of_gt (Nat.zero_lt_of_lt hroom))
        obtain ⟨n, hexc, hbodies, hafter, hwait⟩ := ih (p := q.renew surplus) (d := []) hnext stack hroom
        rw [execute_complete hjson rfl hc hcontent hstart hsurplus]
        refine ⟨n + 1, hexc, ?_, hafter, hwait⟩
        rw [List.map_cons, hbodies]
        rfl
      · refine reads_none hc hread ?_
        intro w ws hw
        obtain ⟨rfl, rfl⟩ := List.cons.inj hw
        rw [hc] at hcomplete
        exact Nat.lt_of_not_le fun hle => Bool.false_ne_true (hcomplete.mpr hle)

/-! ### Chunks -/

theorem length_frame_pos (v : α) : 0 < (frame json v).length := by
  rw [length_frame]
  unfold bodyStart
  omega

/-- Chunk after chunk, all messages are read. -/
theorem Reading.feed_reads (hjson : json.Lawful) {stack : ℕ} {chunks : List JSString}
    (h : Reading json p chunks.flatten vs) (hwait : Waiting json p vs)
    (hstack : vs.length < stack) :
    (feed json stack p chunks).exc = none ∧
      (feed json stack p chunks).responses.map (·.body) = vs ∧
      (feed json stack p chunks).protocol.state = .headers ∧
      (feed json stack p chunks).protocol.raw = [] := by
  induction chunks generalizing p vs with
  | nil =>
    have htext := h.text
    rw [List.flatten_nil, List.append_nil] at htext
    cases vs with
    | nil =>
      rcases h.state with hs | ⟨_, v, vs, hvs, _⟩
      · exact ⟨rfl, rfl, hs, htext⟩
      · cases hvs
    | cons v vs =>
      have hlt := hwait v vs rfl
      rw [htext, stream_cons, List.length_append] at hlt
      omega
  | cons d chunks ih =>
    have hfirst : Reading json { p with raw := p.raw ++ d } chunks.flatten vs := by
      refine ⟨?_, ?_⟩
      · rw [List.append_assoc, ← List.flatten_cons]
        exact h.text
      · rcases h.state with hs | ⟨hs, v, vs', hvs, hcontent, hstart, hle⟩
        · exact Or.inl hs
        · refine Or.inr ⟨hs, v, vs', hvs, hcontent, hstart, ?_⟩
          rw [List.length_append]
          exact Nat.le_add_right_of_le hle
    obtain ⟨n, hexc, hbodies, hread, hwait'⟩ := hfirst.execute_reads hjson hstack
    have hrun : feed json stack p (d :: chunks) =
        ⟨(execute json stack p d).responses ++
            (feed json stack (execute json stack p d).protocol chunks).responses,
          (feed json stack (execute json stack p d).protocol chunks).protocol,
          (feed json stack (execute json stack p d).protocol chunks).exc⟩ := by
      rw [feed, hexc]
    have hroom : (vs.drop n).length < stack := by
      rw [List.length_drop]
      omega
    obtain ⟨hexc', hbodies', hstate, hraw⟩ := ih hread hwait' hroom
    rw [hrun]
    refine ⟨hexc', ?_, hstate, hraw⟩
    rw [List.map_append, hbodies, hbodies', List.take_append_drop]

theorem serializeAll_text (json : Json α) (p : Protocol) (reqs : List α) :
    (serializeAll json p reqs).2 = stream json (serializeAll json p reqs).1 := by
  induction reqs generalizing p with
  | nil => rfl
  | cons req reqs ih =>
    have hrun : serializeAll json p (req :: reqs) =
        (json.stamp p.reqSeq req :: (serializeAll json { p with reqSeq := p.reqSeq + 1 } reqs).1,
          frame json (json.stamp p.reqSeq req) ++
            (serializeAll json { p with reqSeq := p.reqSeq + 1 } reqs).2) := rfl
    rw [hrun, stream_cons, ih]

theorem serializeAll_length (json : Json α) (p : Protocol) (reqs : List α) :
    (serializeAll json p reqs).1.length = reqs.length := by
  induction reqs generalizing p with
  | nil => rfl
  | cons req reqs ih => exact congrArg (· + 1) (ih { p with reqSeq := p.reqSeq + 1 })

/-- Serialized requests come out of another protocol as they went in, however their text is cut
into chunks. -/
theorem feed_serialized (hjson : json.Lawful) (sender : Protocol) (reqs : List α)
    (chunks : List JSString) (hchunks : chunks.flatten = (serializeAll json sender reqs).2)
    (stack : ℕ) (hstack : reqs.length < stack) :
    let result := feed json stack .new chunks
    result.exc = none ∧ result.responses.map (·.body) = (serializeAll json sender reqs).1 ∧
      result.protocol.state = .headers ∧ result.protocol.raw = [] := by
  have htext := serializeAll_text json sender reqs
  have hlength := serializeAll_length json sender reqs
  refine Reading.feed_reads hjson ⟨?_, Or.inl rfl⟩ ?_ (hlength.symm ▸ hstack)
  · rw [hchunks, htext]
    rfl
  · intro v vs _
    exact length_frame_pos v

end

/-! ### Requests for the version -/

/-- `{}`, and the request `{command: 'version'}` before and after it is serialized. -/
inductive VersionRequest
  | empty
  | plain
  | stamped (seq : ℕ)
  deriving DecidableEq

def VersionRequest.stringify : VersionRequest → JSString
  | .empty => js "\x7b\x7d"
  | .plain => js "\x7b\"command\":\"version\"\x7d"
  | .stamped seq =>
    js "\x7b\"command\":\"version\",\"type\":\"request\",\"seq\":" ++ numeral 10 seq ++
      js "\x7d"

/-- The only digits in a text are those of `seq`. -/
def VersionRequest.parse (s : JSString) : Option VersionRequest :=
  if s = stringify .empty then some .empty
  else if s = stringify .plain then some .plain
  else
    (readDigits (s.filter fun c => (digitValue c).isSome)).bind fun seq =>
      if s = stringify (.stamped seq) then some (.stamped seq) else none

def versionJson : Json VersionRequest where
  stringify := VersionRequest.stringify
  parse := VersionRequest.parse
  empty := .empty
  stamp seq _ := .stamped seq

theorem versionJson_lawful : versionJson.Lawful where
  parse_stringify v := by
    cases v with
    | empty => decide
    | plain => decide
    | stamped seq =>
      have hempty : VersionRequest.stringify (.stamped seq) ≠ VersionRequest.stringify .empty := by
        intro h
        have htake : (VersionRequest.stringify (.stamped seq)).take 2 = js "\x7b\"" := rfl
        rw [h] at htake
        exact absurd htake (by decide)
      have hplain : VersionRequest.stringify (.stamped seq) ≠ VersionRequest.stringify .plain := by
        intro h
        have htake : (VersionRequest.stringify (.stamped seq)).take 21 =
            js "\x7b\"command\":\"version\"," := rfl
        rw [h] at htake
        exact absurd htake (by decide)
      have hdigits : (VersionRequest.stringify (.stamped seq)).filter
          (fun c => (digitValue c).isSome) = numeral 10 seq := by
        have hall : (numeral 10 seq).filter (fun c => (digitValue c).isSome) = numeral 10 seq := by
          rw [List.filter_eq_self]
          intro c hc
          unfold digitValue
          rw [if_pos (numeral_digit hc)]
          rfl
        unfold VersionRequest.stringify
        rw [List.filter_append, List.filter_append, hall]
        exact List.append_nil _
      show VersionRequest.parse (VersionRequest.stringify (.stamped seq)) = some (.stamped seq)
      unfold VersionRequest.parse
      rw [if_neg hempty, if_neg hplain, hdigits, readDigits_numeral, Option.bind_some, if_pos rfl]
  parse_nil := by decide

theorem feed_serialized_version :
    let text := (serializeAll versionJson .new [.plain, .plain]).2
    let result := feed versionJson 3 .new [text.take 7, [], text.drop 7]
    result.exc = none ∧ result.responses.map (·.body) = [.stamped 1, .stamped 2] ∧
      result.protocol.state = .headers ∧ result.protocol.raw = [] := by
  refine feed_serialized versionJson_lawful .new [.plain, .plain] _ ?_ 3 (by decide)
  rw [List.flatten_cons, List.flatten_cons, List.flatten_cons, List.flatten_nil, List.nil_append,
    List.append_nil, List.take_append_drop]

end NodeJS.Debugger
