import NodeJS.Net.Drain
import Mathlib.Data.List.Chain

/-! Writes made through the queue, where strings are concatenated before they are encoded,
against writes made directly. -/
namespace NodeJS.Net

theorem coalesce_cases (q : List Entry) (data : Data) (encoding : EncArg) (cb : Option Callback) :
    coalesce q data encoding cb = q ++ [⟨data, encoding, cb⟩] ∨
    ∃ init last str lastCb, q = init ++ [⟨.str last, encoding, lastCb⟩] ∧ data = .str str ∧
      coalesce q data encoding cb =
        init ++ [⟨.str (last ++ str), encoding, mergeCallbacks lastCb cb⟩] := by
  unfold coalesce
  split
  · rename_i last e lastCb str hlast
    split_ifs with he
    · subst he
      have hq := List.dropLast_append_getLast? _ hlast
      exact Or.inr ⟨q.dropLast, last, str, lastCb, hq.symm, rfl, rfl⟩
    · exact Or.inl rfl
  · exact Or.inl rfl

theorem coalesce_ne_nil (q : List Entry) (data : Data) (encoding : EncArg)
    (cb : Option Callback) : coalesce q data encoding cb ≠ [] := by
  rcases coalesce_cases q data encoding cb with h | ⟨init, last, str, lastCb, _, _, h⟩
  · simp [h]
  · simp [h]

theorem coalesce_frozen {q : List Entry} {p : Pool} (h : ∀ e ∈ q, e.Frozen p) {data : Data}
    {encoding : EncArg} {cb : Option Callback} (hdata : (⟨data, encoding, cb⟩ : Entry).Frozen p) :
    ∀ e ∈ coalesce q data encoding cb, e.Frozen p := by
  intro e he
  rcases coalesce_cases q data encoding cb with hc | ⟨init, last, str, lastCb, hq, _, hc⟩
  · rw [hc, List.mem_append, List.mem_singleton] at he
    rcases he with he | he
    · exact h e he
    · subst he
      exact hdata
  · rw [hc, List.mem_append, List.mem_singleton] at he
    rcases he with he | he
    · exact h e (by simp [hq, he])
    · subst he
      trivial

/-- The queue after a list of writes that were all queued. -/
def coalesceAll (q : List Entry) (ws : List Write) : List Entry :=
  ws.foldl (fun q w => coalesce q (Chunk.data w.chunk) w.encoding none) q

/-- A write that finds the socket connecting or data pending. -/
theorem submit_queued (h : Ready n) (hq : n.sock.connecting = true ∨ n.sock.queue ≠ [])
    (w : Write) :
    Ready (submit n w) ∧
      (submit n w).sock.queue = coalesce n.sock.queue (Chunk.data w.chunk) w.encoding none ∧
      (submit n w).pool = n.pool ∧ (submit n w).sock.wire = n.sock.wire := by
  have hqueue : n.sock.connecting = true ∨ n.sock.queue ≠ [] ∨ n.sock.endOfFile = true := by
    rcases hq with hq | hq
    · exact Or.inl hq
    · exact Or.inr (Or.inl hq)
  unfold submit write
  rw [if_pos hqueue, if_neg (by simp [h.endOfFile])]
  refine ⟨⟨h.writable, h.destroyed, h.endOfFile, ?_,
    coalesce_frozen h.frozen (Chunk.frozen_data w _)⟩, rfl, rfl, rfl⟩
  intro d hd
  apply h.fds d
  simpa [enqueue] using hd

theorem submit_all (h : Ready n) (hq : n.sock.connecting = true ∨ n.sock.queue ≠ [])
    (ws : List Write) :
    Ready (ws.foldl submit n) ∧ (ws.foldl submit n).sock.queue = coalesceAll n.sock.queue ws ∧
      (ws.foldl submit n).pool = n.pool ∧ (ws.foldl submit n).sock.wire = n.sock.wire := by
  induction ws generalizing n with
  | nil => exact ⟨h, rfl, rfl, rfl⟩
  | cons w ws ih =>
    obtain ⟨hr, hqueue, hpool, hwire⟩ := submit_queued h hq w
    have hne : (submit n w).sock.queue ≠ [] := by
      rw [hqueue]
      exact coalesce_ne_nil _ _ _ _
    obtain ⟨hr', hqueue', hpool', hwire'⟩ := ih hr (Or.inr hne)
    refine ⟨hr', ?_, hpool'.trans hpool, hwire'.trans hwire⟩
    rw [List.foldl_cons, hqueue', hqueue]
    rfl

/-- Queued writes come to what the coalesced queue promises. -/
theorem queued_eq (h : Ready n) (hq : n.sock.connecting = true ∨ n.sock.queue ≠ [])
    (ws : List Write) :
    outcome (queued n ws) =
      (n.sock.wire ++ (emitAll n.pool (coalesceAll n.sock.queue ws)).1,
        (emitAll n.pool (coalesceAll n.sock.queue ws)).2) := by
  obtain ⟨hr, hqueue, hpool, hwire⟩ := submit_all h hq ws
  obtain ⟨hready, hpromise, _⟩ := establish_settled hr
  have hd := drain_drained (Or.inl hready)
  unfold queued
  rw [hd.outcome_eq, hpromise, promise, hr.destroyed, if_neg Bool.false_ne_true, hqueue, hpool,
    hwire]

theorem sizeOfInt_used {k : ℕ} (h : k < kPoolSize) :
    Base64.sizeOfInt (Base64.int32Value k) = k := by
  have hk : k < 40960 := h
  unfold Base64.sizeOfInt Base64.int32Value
  omega

/-- A base64 string that surely fits into the pool. -/
theorem emit_base64 (p : Pool) {s : JSString} {encoding : EncArg} (cb : Option Callback)
    (he : encoding.encoding = .base64)
    (hsize : (Base64.base64DecodedSize (asciiValue s)).val ≤ kMinPoolSpace)
    (hdec : (Base64.decode (asciiValue s)).length ≤ kMinPoolSpace)
    (hne : s = [] ∨ Base64.decode (asciiValue s) ≠ []) :
    emit p ⟨.str s, encoding, cb⟩ = some (Base64.decode (asciiValue s)) := by
  obtain ⟨_, hroom⟩ := ensure_room p
  simp only [kMinPoolSpace] at hroom hsize hdec
  have hlt : p.ensure.used < kPoolSize := by omega
  have hused := sizeOfInt_used hlt
  have hb : Base64.base64Write kPoolSize s p.ensure.used = .ok (Base64.decode (asciiValue s)) := by
    rw [Base64.base64Write_ok_iff, hused]
    exact Or.inr ⟨hlt, by omega, rfl⟩
  have hbw : bufferWrite kPoolSize s p.ensure.used .base64 =
      .ok ⟨Base64.decode (asciiValue s), (Base64.decode (asciiValue s)).length, s.length⟩ := by
    unfold bufferWrite
    dsimp only
    rw [hb]
    rfl
  unfold emit
  dsimp only
  rw [if_neg (not_not.mpr he), hbw]
  dsimp only
  rw [if_neg, if_neg (by omega), List.take_length]
  intro hboth
  obtain ⟨hpos, hzero⟩ := hboth
  rcases hne with hs | hne
  · simp [hs] at hpos
  · exact hne (List.length_eq_zero_iff.mp hzero)

theorem emit_str_nil (p : Pool) (encoding : EncArg) (cb : Option Callback) :
    emit p ⟨.str [], encoding, cb⟩ = some [] := by
  by_cases he : encoding.encoding = .base64
  · exact emit_base64 p cb he (by decide) (by decide) (Or.inl rfl)
  · simp [emit, he]

theorem emit_cb (p : Pool) (data : Data) (encoding : EncArg) (cb cb' : Option Callback) :
    emit p ⟨data, encoding, cb⟩ = emit p ⟨data, encoding, cb'⟩ := rfl

theorem emitAll_congr (p : Pool) {q q' : List Entry} (h : emitAll p q = emitAll p q')
    (rest : List Entry) : emitAll p (q ++ rest) = emitAll p (q' ++ rest) := by
  rw [emitAll_append, emitAll_append, h]

theorem emitAll_congr_right (p : Pool) {q q' : List Entry} (h : emitAll p q = emitAll p q')
    (init : List Entry) : emitAll p (init ++ q) = emitAll p (init ++ q') := by
  rw [emitAll_append, emitAll_append, h]

/-- One string instead of two, where that makes no difference. -/
theorem emitAll_merge (p : Pool) {last str : JSString} {encoding : EncArg}
    (h : encoding.encoding ≠ .base64 ∨ last = [] ∨ str = []) (cb cb' cb'' : Option Callback) :
    emitAll p [⟨.str (last ++ str), encoding, cb⟩] =
      emitAll p [⟨.str last, encoding, cb'⟩, ⟨.str str, encoding, cb''⟩] := by
  rcases h with h | h | h
  · simp [emitAll, emit, h, encode_append h]
  · subst h
    simp only [emitAll, emit_str_nil, List.nil_append]
    rw [emit_cb p (.str str) encoding cb cb'']
  · subst h
    simp only [emitAll, emit_str_nil, List.append_nil]
    rw [emit_cb p (.str last) encoding cb cb']

theorem emitAll_coalesce (p : Pool) (q : List Entry) (w : Write)
    (h : ∀ init last str lastCb, q = init ++ [⟨.str last, w.encoding, lastCb⟩] →
      w.chunk = .str str → w.encoding.encoding ≠ .base64 ∨ last = [] ∨ str = []) :
    emitAll p (coalesce q (Chunk.data w.chunk) w.encoding none) = emitAll p (q ++ [w.entry]) := by
  rcases coalesce_cases q (Chunk.data w.chunk) w.encoding none with
    hc | ⟨init, last, str, lastCb, hq, hd, hc⟩
  · rw [hc]
    rfl
  · have hstr : w.chunk = .str str := by
      cases hw : w.chunk with
      | str s =>
        rw [hw] at hd
        exact congrArg Chunk.str (Data.str.inj hd)
      | buffer b =>
        rw [hw] at hd
        cases hd
    have hentry : w.entry = ⟨.str str, w.encoding, none⟩ := by
      simp [Write.entry, hstr, Chunk.data]
    rw [hc, hq, hentry, List.append_assoc]
    apply emitAll_congr_right
    exact emitAll_merge p (h init last str lastCb hq hstr) _ _ _

/-! ### Which sequences of writes are safe to queue -/

/-- What `write` looks at in a queued item: whether it is a string, and its encoding name. -/
def Entry.kind (e : Entry) : Option EncArg :=
  match e.data with
  | .str _ => some e.encoding
  | .buf _ => none

def Write.kind (w : Write) : Option EncArg := w.entry.kind

/-- Neighbours that are concatenated although base64 does not allow it. -/
def Clash (a b : Option EncArg) : Prop := a = b ∧ ∃ e : EncArg, a = some e ∧ e.encoding = .base64

theorem kind_of_chunk_str {w : Write} {str : JSString} (h : w.chunk = .str str) :
    w.kind = some w.encoding := by
  simp [Write.kind, Write.entry, Entry.kind, h, Chunk.data]

theorem coalesce_getLast (q : List Entry) (w : Write) :
    (coalesce q (Chunk.data w.chunk) w.encoding none).getLast?.map Entry.kind = some w.kind := by
  rcases coalesce_cases q (Chunk.data w.chunk) w.encoding none with
    hc | ⟨init, last, str, lastCb, _, hd, hc⟩
  · rw [hc, List.getLast?_concat]
    rfl
  · rw [hc, List.getLast?_concat]
    simp [Entry.kind, Write.kind, Write.entry, hd]

theorem emitAll_coalesceAll (p : Pool) (q : List Entry) (ws : List Write)
    (h : List.IsChain (fun a b => ¬ Clash a b)
      ((q.getLast?.map Entry.kind).toList ++ ws.map Write.kind)) :
    emitAll p (coalesceAll q ws) = emitAll p (q ++ ws.map Write.entry) := by
  induction ws generalizing q with
  | nil => simp [coalesceAll]
  | cons w ws ih =>
    have htail : List.IsChain (fun a b => ¬ Clash a b) (w.kind :: ws.map Write.kind) := by
      rw [List.map_cons] at h
      exact h.right_of_append
    have hstep := ih (coalesce q (Chunk.data w.chunk) w.encoding none) (by
      rw [coalesce_getLast]
      exact htail)
    have hmerge := emitAll_coalesce p q w (by
      intro init last str lastCb hq hstr
      left
      intro hbase
      rw [hq, List.getLast?_concat, List.map_cons, Option.map_some, Option.toList_some,
        List.singleton_append, List.isChain_cons_cons] at h
      apply h.1
      rw [kind_of_chunk_str hstr]
      exact ⟨rfl, w.encoding, rfl, hbase⟩)
    show emitAll p (coalesceAll (coalesce q (Chunk.data w.chunk) w.encoding none) ws) = _
    rw [hstep, emitAll_congr p hmerge, List.append_assoc, List.map_cons, List.singleton_append]

/-! Contents that make a difference: `"AA"` twice where two strings clash, nothing in all other
strings, one byte in every Buffer. -/

def blank (kind : Option EncArg) : Write :=
  match kind with
  | none => ⟨.buffer [0], none⟩
  | some e => ⟨.str [], e⟩

def Blank (e : Entry) : Prop := e.data = .str [] ∨ e.data = .buf (.user [0])

theorem kind_blank (k : Option EncArg) : (blank k).kind = k := by
  cases k with
  | none => rfl
  | some e => rfl

theorem Blank.blank (k : Option EncArg) : Blank (blank k).entry := by
  cases k with
  | none => exact Or.inr rfl
  | some e => exact Or.inl rfl

theorem blank_entries (ks : List (Option EncArg)) :
    ∀ e ∈ (ks.map blank).map Write.entry, Blank e := by
  intro e he
  simp only [List.map_map, List.mem_map] at he
  obtain ⟨k, _, rfl⟩ := he
  exact Blank.blank k

theorem emitAll_blank (p : Pool) {q : List Entry} (h : ∀ e ∈ q, Blank e) :
    (emitAll p q).2 = false := by
  induction q with
  | nil => rfl
  | cons e q ih =>
    have hq := ih fun e' he' => h e' (List.mem_cons_of_mem _ he')
    obtain ⟨data, encoding, cb⟩ := e
    rcases h _ (List.mem_cons_self ..) with he | he
    · dsimp only at he
      subst he
      simp [emitAll, emit_str_nil, hq]
    · dsimp only at he
      subst he
      simp [emitAll, emit, Buf.length, hq]

theorem emitAll_coalesceAll_blank (p : Pool) (q : List Entry) (ks : List (Option EncArg)) :
    emitAll p (coalesceAll q (ks.map blank)) = emitAll p (q ++ (ks.map blank).map Write.entry) := by
  induction ks generalizing q with
  | nil => simp [coalesceAll]
  | cons k ks ih =>
    have hmerge := emitAll_coalesce p q (blank k) (by
      intro init last str lastCb _ hstr
      cases k with
      | none => cases hstr
      | some e =>
        right
        right
        exact (Chunk.str.inj hstr).symm)
    rw [List.map_cons, List.map_cons]
    show emitAll p (coalesceAll (coalesce q (Chunk.data (blank k).chunk) (blank k).encoding none)
      (ks.map blank)) = _
    rw [ih, emitAll_congr p hmerge, List.append_assoc, List.singleton_append]

theorem coalesceAll_blank {q : List Entry} (h : ∀ e ∈ q, Blank e) (ks : List (Option EncArg)) :
    ∀ e ∈ coalesceAll q (ks.map blank), Blank e := by
  induction ks generalizing q with
  | nil => exact h
  | cons k ks ih =>
    apply ih
    intro e he
    dsimp only at he
    rcases coalesce_cases q (Chunk.data (blank k).chunk) (blank k).encoding none with
      hc | ⟨init, last, str, lastCb, hq, hd, hc⟩
    · rw [hc, List.mem_append, List.mem_singleton] at he
      rcases he with he | he
      · exact h e he
      · subst he
        exact Blank.blank k
    · rw [hc, List.mem_append, List.mem_singleton] at he
      rcases he with he | he
      · exact h e (by simp [hq, he])
      · subst he
        have hlast := h ⟨.str last, (blank k).encoding, lastCb⟩ (by simp [hq])
        have hstr := Blank.blank k
        simp only [Blank, Write.entry, hd, Data.str.injEq, reduceCtorEq, or_false] at hlast hstr
        simp [Blank, hlast, hstr]

/-- Half a quad, which stands for one byte; two of them make three. -/
def half (encoding : EncArg) : Write := ⟨.str (js "AA"), encoding⟩

theorem emit_half (p : Pool) {encoding : EncArg} (he : encoding.encoding = .base64)
    (cb : Option Callback) : emit p ⟨.str (js "AA"), encoding, cb⟩ = some [0] :=
  emit_base64 p cb he (by decide) (by decide) (by decide)

theorem emit_quad (p : Pool) {encoding : EncArg} (he : encoding.encoding = .base64)
    (cb : Option Callback) :
    emit p ⟨.str (js "AA" ++ js "AA"), encoding, cb⟩ = some [0, 0, 0] :=
  emit_base64 p cb he (by decide) (by decide) (by decide)

/-- The second half is concatenated onto the first one, and a byte appears. -/
theorem emitAll_clash (p : Pool) {init : List Entry} (hinit : ∀ e ∈ init, Blank e)
    {encoding : EncArg} (he : encoding.encoding = .base64) (cb : Option Callback)
    (ks : List (Option EncArg)) :
    emitAll p (coalesceAll (init ++ [⟨.str (js "AA"), encoding, cb⟩])
        (half encoding :: ks.map blank)) ≠
      emitAll p (init ++ [⟨.str (js "AA"), encoding, cb⟩] ++
        (half encoding :: ks.map blank).map Write.entry) := by
  have hmerge : coalesce (init ++ [⟨.str (js "AA"), encoding, cb⟩]) (.str (js "AA")) encoding none =
      init ++ [⟨.str (js "AA" ++ js "AA"), encoding, mergeCallbacks cb none⟩] := by
    unfold coalesce
    rw [List.getLast?_concat]
    simp
  have hpost := blank_entries ks
  have hq := emitAll_coalesceAll_blank p
    (init ++ [⟨.str (js "AA" ++ js "AA"), encoding, mergeCallbacks cb none⟩]) ks
  have hleft : emitAll p (coalesceAll (init ++ [⟨.str (js "AA"), encoding, cb⟩])
      (half encoding :: ks.map blank)) =
      ((emitAll p init).1 ++ [0, 0, 0] ++ (emitAll p ((ks.map blank).map Write.entry)).1,
        false) := by
    show emitAll p (coalesceAll (coalesce (init ++ [⟨.str (js "AA"), encoding, cb⟩])
      (.str (js "AA")) encoding none) (ks.map blank)) = _
    rw [hmerge, hq, List.append_assoc, emitAll_append]
    simp [-List.map_map, emitAll, emit_quad p he, emitAll_blank p hinit, emitAll_blank p hpost]
  have hright : emitAll p (init ++ [⟨.str (js "AA"), encoding, cb⟩] ++
      (half encoding :: ks.map blank).map Write.entry) =
      ((emitAll p init).1 ++ [0, 0] ++ (emitAll p ((ks.map blank).map Write.entry)).1, false) := by
    rw [List.append_assoc, emitAll_append]
    rw [List.map_cons]
    simp [-List.map_map, emitAll, half, Write.entry, Chunk.data, emit_half p he,
      emitAll_blank p hinit, emitAll_blank p hpost]
  rw [hleft, hright]
  intro heq
  have hlen := congrArg (fun r => r.1.length) heq
  simp at hlen

theorem map_kind_blank (ks : List (Option EncArg)) : (ks.map blank).map Write.kind = ks := by
  simp [Function.comp_def, kind_blank]

theorem map_entry_kind (ws : List Write) :
    (ws.map Write.entry).map Entry.kind = ws.map Write.kind := by
  rw [List.map_map]
  rfl

def waiting (q : List Entry) : State :=
  ⟨⟨fun _ _ => 0, 0, 0⟩, { Socket.new false true with queue := q }⟩

theorem ready_waiting (ws : List Write) : Ready (waiting (ws.map Write.entry)) := by
  refine ⟨rfl, rfl, rfl, ?_, ?_⟩
  · intro d hd
    cases hd
  · intro e he
    obtain ⟨w, _, rfl⟩ := List.mem_map.mp he
    exact Chunk.frozen_data w _

/-- The comparison of the two ways, for a queue that waits, is one of its entries. -/
theorem waiting_outcome {ws₀ ws : List Write}
    (h : outcome (queued (waiting (ws₀.map Write.entry)) ws) =
      outcome (direct (waiting (ws₀.map Write.entry)) ws)) :
    emitAll (waiting (ws₀.map Write.entry)).pool (coalesceAll (ws₀.map Write.entry) ws) =
      emitAll (waiting (ws₀.map Write.entry)).pool
        (ws₀.map Write.entry ++ ws.map Write.entry) := by
  have hready := ready_waiting ws₀
  rw [queued_eq hready (Or.inl rfl), direct_eq hready] at h
  exact h

/-- A clash between two of the writes. -/
theorem writes_clash (pending pre post : List (Option EncArg)) {encoding : EncArg}
    (he : encoding.encoding = .base64) :
    let n := waiting ((pending.map blank).map Write.entry)
    let ws := pre.map blank ++ half encoding :: half encoding :: post.map blank
    outcome (queued n ws) ≠ outcome (direct n ws) := by
  intro n ws heq
  have hblank := blank_entries pending
  have hfates := waiting_outcome heq
  let p := n.pool
  let q := coalesceAll ((pending.map blank).map Write.entry) (pre.map blank)
  have hq : ∀ e ∈ q, Blank e := coalesceAll_blank hblank pre
  have hpre := emitAll_coalesceAll_blank p ((pending.map blank).map Write.entry) pre
  have hfirst := emitAll_coalesce p q (half encoding) (by
    intro init last str lastCb hlast _
    right
    left
    have := hq ⟨.str last, encoding, lastCb⟩ (by rw [hlast]; simp [half])
    simpa [Blank] using this)
  obtain ⟨init, cb, hinit, hcoalesce⟩ : ∃ init cb, (∀ e ∈ init, Blank e) ∧
      coalesce q (.str (js "AA")) encoding none =
        init ++ [⟨.str (js "AA"), encoding, cb⟩] := by
    rcases coalesce_cases q (.str (js "AA")) encoding none with
      hc | ⟨init, last, str, lastCb, hlast, hd, hc⟩
    · exact ⟨q, none, hq, hc⟩
    · have hnil := hq ⟨.str last, encoding, lastCb⟩ (by simp [hlast])
      simp only [Blank, Data.str.injEq, reduceCtorEq, or_false] at hnil
      rw [hnil, List.nil_append, ← Data.str.inj hd] at hc
      exact ⟨init, _, fun e hmem => hq e (by simp [hlast, hmem]), hc⟩
  have hclash := emitAll_clash p hinit he cb post
  apply hclash
  have hleft : coalesceAll ((pending.map blank).map Write.entry) ws =
      coalesceAll (init ++ [⟨.str (js "AA"), encoding, cb⟩]) (half encoding :: post.map blank) := by
    rw [← hcoalesce]
    simp only [ws, coalesceAll, List.foldl_append, List.foldl_cons]
    rfl
  rw [← hleft]
  apply hfates.trans
  show emitAll p ((pending.map blank).map Write.entry ++ ws.map Write.entry) = _
  have hws : (pending.map blank).map Write.entry ++ ws.map Write.entry =
      ((pending.map blank).map Write.entry ++ (pre.map blank).map Write.entry) ++
        ([(half encoding).entry] ++ (half encoding :: post.map blank).map Write.entry) := by
    simp [ws]
  rw [hws, ← emitAll_congr p hpre, ← List.append_assoc, ← emitAll_congr p hfirst]
  show emitAll p (coalesce q (.str (js "AA")) encoding none ++ _) = _
  rw [hcoalesce]

/-- A clash between the last pending string and the first write. -/
theorem pending_clash (pending post : List (Option EncArg)) {encoding : EncArg}
    (he : encoding.encoding = .base64) :
    let n := waiting ((pending.map blank ++ [half encoding]).map Write.entry)
    let ws := half encoding :: post.map blank
    outcome (queued n ws) ≠ outcome (direct n ws) := by
  intro n ws heq
  have hblank := blank_entries pending
  have hfates := waiting_outcome heq
  rw [List.map_append] at hfates
  exact emitAll_clash _ hblank he none post hfates

/-- Queued and direct writes agree, whatever is in them, exactly when no two strings with one
base64 name follow each other. -/
theorem queued_direct_iff (pending writes : List (Option EncArg)) :
    (∀ (n : State) (ws : List Write), Ready n →
      (n.sock.connecting = true ∨ n.sock.queue ≠ []) →
      n.sock.queue.map Entry.kind = pending → ws.map Write.kind = writes →
      outcome (queued n ws) = outcome (direct n ws)) ↔
    List.IsChain (fun a b => ¬ Clash a b) (pending.getLast?.toList ++ writes) := by
  constructor
  · intro h
    rw [List.isChain_iff_forall_rel_of_append_cons_cons]
    rintro a b pre post hsplit ⟨rfl, encoding, rfl, he⟩
    have hhalf : (half encoding).kind = some encoding := rfl
    have hwrites : ∀ pre, ((pre.map blank ++ half encoding :: half encoding :: post.map blank).map
        Write.kind) = pre ++ some encoding :: some encoding :: post := by
      intro pre
      rw [List.map_append, List.map_cons, List.map_cons, map_kind_blank, map_kind_blank, hhalf]
    have hmiddle : ∀ pre, writes = pre ++ some encoding :: some encoding :: post → False := by
      intro pre hw
      refine writes_clash pending pre post he (h _ _ (ready_waiting _) (Or.inl rfl) ?_ ?_)
      · exact (map_entry_kind _).trans (map_kind_blank pending)
      · exact (hwrites pre).trans hw.symm
    cases hlast : pending.getLast? with
    | none =>
      rw [hlast, Option.toList_none, List.nil_append] at hsplit
      exact hmiddle pre hsplit
    | some k =>
      rw [hlast, Option.toList_some, List.singleton_append] at hsplit
      cases pre with
      | nil =>
        obtain ⟨rfl, hw⟩ := List.cons.inj hsplit
        refine pending_clash pending.dropLast post he
          (h _ _ (ready_waiting _) (Or.inl rfl) ?_ ?_)
        · apply (map_entry_kind _).trans
          rw [List.map_append, map_kind_blank]
          exact List.dropLast_append_getLast? _ hlast
        · rw [List.map_cons, map_kind_blank, hhalf]
          exact hw.symm
      | cons k' pre =>
        exact hmiddle pre (List.cons.inj hsplit).2
  · intro h n ws hready hqueue hpending hwrites
    rw [queued_eq hready hqueue, direct_eq hready, emitAll_coalesceAll]
    rw [← hwrites, ← hpending, List.getLast?_map] at h
    exact h

/-- Two padded strings written while connecting arrive as three bytes instead of two. -/
theorem queued_ne_direct :
    ¬ ∀ (n : State) (ws : List Write), Ready n →
      (n.sock.connecting = true ∨ n.sock.queue ≠ []) →
      outcome (queued n ws) = outcome (direct n ws) := by
  intro h
  let e : EncArg := some (encName .base64)
  let ws : List Write := [⟨.str (js "YQ=="), e⟩, ⟨.str (js "Yg=="), e⟩]
  have heq := h (waiting []) ws (ready_waiting []) (Or.inl rfl)
  have hqueued : outcome (queued (waiting []) ws) = ([0x61, 0x06, 0x20], false) := by
    decide +kernel
  have hdirect : outcome (direct (waiting []) ws) = ([0x61, 0x62], false) := by
    decide +kernel
  rw [hqueued, hdirect] at heq
  revert heq
  decide

end NodeJS.Net
