import NodeJS.Debugger.Protocol
import NodeJS.Lib.Reach
import Mathlib.Data.List.Nodup

/-! `_debugger.js`: the requests of a `Client` and the callbacks that its messages call. -/
namespace NodeJS.Debugger

/-- What `_onResponse` takes a message for. -/
inductive Event
  | connect
  | «break»
  | afterCompile
  | scriptCollected
  | other
  deriving DecidableEq

/-- A message, with the number that its `request_seq` is. -/
structure Message where
  event : Event
  requestSeq : Option ℕ

structure Request where
  seq : ℕ
  cb : ℕ

/-- A message that was handled: the callbacks of the requests it answered, and those called. -/
structure Answer where
  expected : List ℕ
  called : List ℕ

/-- Where `_onResponse` is: `handling` until it has called `cb`, with what the search has found. -/
inductive Phase
  | idle
  | handling (cb : Option ℕ) (i : ℕ) (handled : Bool) (expected : List ℕ)
  | returned

inductive Emitted
  | ready
  | «break»
  | unhandledResponse

/-- A `Client`. Functions are numbers, and `requestSeq` is their property `request_seq`. The last
three fields record what happened. -/
structure Client where
  protocol : Protocol
  reqCallbacks : List ℕ
  requestSeq : ℕ → Option ℕ
  phase : Phase
  emitted : List Emitted
  outstanding : List Request
  asked : List ℕ
  answers : List Answer

/-- Whether a response with the given `request_seq` answers a request. -/
def Request.matches (requestSeq : Option ℕ) (r : Request) : Bool := some r.seq = requestSeq

/-- The loop of `_onResponse`, from index `i` on, where `cb` is the callback it looked at last. -/
def search (seqOf : ℕ → Option ℕ) (requestSeq : Option ℕ) :
    List ℕ → ℕ → Option ℕ → Option ℕ × ℕ
  | [], i, cb => (cb, i)
  | c :: cs, i, _ =>
    if seqOf c = requestSeq then (some c, i) else search seqOf requestSeq cs (i + 1) (some c)

namespace Client

def req (s : Client) (cb : ℕ) : Client :=
  { s with
    protocol := { s.protocol with reqSeq := s.protocol.reqSeq + 1 }
    reqCallbacks := s.reqCallbacks ++ [cb]
    requestSeq := Function.update s.requestSeq cb (some s.protocol.reqSeq)
    outstanding := s.outstanding ++ [⟨s.protocol.reqSeq, cb⟩]
    asked := s.asked ++ [cb] }

def emit (s : Client) (e : Emitted) : Client := { s with emitted := s.emitted ++ [e] }

def expected (s : Client) (m : Message) : List ℕ :=
  (s.outstanding.filter (·.matches m.requestSeq)).map (·.cb)

/-- `_onResponse` up to the search. -/
def receive (s : Client) (m : Message) : Client :=
  let (cb, i) := search s.requestSeq m.requestSeq s.reqCallbacks 0 none
  { s with
    outstanding := s.outstanding.filter fun r => !r.matches m.requestSeq
    phase := .handling cb i (m.event ≠ .other) (s.expected m) }

/-- What a message does for its event; `scripts` is the function that `reqScripts` makes. -/
def handle (s : Client) (scripts : ℕ) : Event → Client
  | .connect => (s.req scripts).emit .ready
  | .break => s.emit .break
  | .afterCompile => s
  | .scriptCollected => s
  | .other => s

/-- The end of `_onResponse`. -/
def dispatch (s : Client) : Option ℕ → ℕ → Bool → List ℕ → Client
  | some cb, i, _, expected =>
    { s with
      reqCallbacks := s.reqCallbacks.eraseIdx i
      answers := s.answers ++ [⟨expected, [cb]⟩]
      phase := .returned }
  | none, _, handled, expected =>
    let s := { s with answers := s.answers ++ [⟨expected, []⟩], phase := .returned }
    if handled then s else s.emit .unhandledResponse

def new : Client where
  protocol := .new
  reqCallbacks := []
  requestSeq _ := none
  phase := .idle
  emitted := []
  outstanding := []
  asked := []
  answers := []

end Client

/-- `req` may be called at any time, by listeners and callbacks as well; `refused` is one whose
`write` throws. -/
inductive Action
  | req (cb : ℕ)
  | refused
  | message (m : Message) (scripts : ℕ)
  | dispatch
  | finish (surplus : JSString)

def Client.step (s : Client) : Action → Option Client
  | .req cb => some (s.req cb)
  | .refused =>
    some { s with protocol := { s.protocol with reqSeq := s.protocol.reqSeq + 1 } }
  | .message m scripts =>
    match s.phase with
    | .idle =>
      if s.requestSeq scripts = none then some ((s.receive m).handle scripts m.event) else none
    | _ => none
  | .dispatch =>
    match s.phase with
    | .handling cb i handled expected => some (s.dispatch cb i handled expected)
    | _ => none
  | .finish surplus =>
    match s.phase with
    | .returned => some { s with protocol := s.protocol.renew surplus, phase := .idle }
    | _ => none

/-- Messages call the callbacks of the requests they answer and no others, and no callback is
called more often than it was passed to `req`. -/
structure Client.Faithful (s : Client) : Prop where
  answers : ∀ a ∈ s.answers, a.called = a.expected
  once : ∀ cb, (s.answers.flatMap (·.called)).count cb ≤ s.asked.count cb

/-- A function that does not wait yet; a message that answers exactly one request, unless none
waits. -/
def Client.Fit (s : Client) : Action → Prop
  | .req cb => cb ∉ s.outstanding.map (·.cb)
  | .message m _ =>
    s.outstanding = [] ∨ ∃ r, s.outstanding.filter (·.matches m.requestSeq) = [r]
  | _ => True

/-! ### The search -/

theorem search_none {seqOf : ℕ → Option ℕ} {requestSeq : Option ℕ} {cs : List ℕ}
    (h : ∀ c ∈ cs, seqOf c ≠ requestSeq) (hne : cs ≠ []) (i : ℕ) (cb : Option ℕ) :
    search seqOf requestSeq cs i cb = (cs.getLast?, i + cs.length) := by
  induction cs generalizing i cb with
  | nil => exact absurd rfl hne
  | cons c cs ih =>
    rw [search, if_neg (h c List.mem_cons_self)]
    cases cs with
    | nil => rfl
    | cons d cs =>
      rw [ih (fun x hx => h x (List.mem_cons_of_mem c hx)) (List.cons_ne_nil d cs),
        List.getLast?_cons_cons, List.length_cons (a := c)]
      congr 1
      omega

theorem search_some {seqOf : ℕ → Option ℕ} {requestSeq : Option ℕ} {pre : List ℕ} {c : ℕ}
    (h : ∀ c ∈ pre, seqOf c ≠ requestSeq) (hc : seqOf c = requestSeq) (post : List ℕ) (i : ℕ)
    (cb : Option ℕ) :
    search seqOf requestSeq (pre ++ c :: post) i cb = (some c, i + pre.length) := by
  induction pre generalizing i cb with
  | nil => rw [List.nil_append, search, if_pos hc]; rfl
  | cons d pre ih =>
    rw [List.cons_append, search, if_neg (h d List.mem_cons_self),
      ih fun x hx => h x (List.mem_cons_of_mem d hx)]
    rw [List.length_cons]
    congr 1
    omega

/-! ### The invariant -/

def Phase.pending : Phase → List ℕ
  | .handling cb _ _ _ => cb.toList
  | _ => []

def Client.queue (s : Client) : List ℕ :=
  match s.phase with
  | .handling (some _) i _ _ => s.reqCallbacks.eraseIdx i
  | _ => s.reqCallbacks

/-- Where the callback that is called stands in the list. -/
def Client.Indexed (s : Client) : Prop :=
  match s.phase with
  | .handling (some _) i _ _ => i < s.reqCallbacks.length
  | _ => True

def Client.Expected (s : Client) : Prop :=
  match s.phase with
  | .handling cb _ _ expected => cb.toList = expected
  | _ => True

structure Client.Linked (s : Client) : Prop where
  nodup : (s.outstanding.map (·.cb)).Nodup
  seq : ∀ r ∈ s.outstanding, s.requestSeq r.cb = some r.seq
  queue : s.queue = s.outstanding.map (·.cb)
  indexed : s.Indexed
  expected : s.Expected
  answers : ∀ a ∈ s.answers, a.called = a.expected
  counts : ∀ cb, (s.answers.flatMap (·.called)).count cb + s.phase.pending.count cb +
    (s.outstanding.map (·.cb)).count cb = s.asked.count cb

namespace Client
variable {s s' : Client}

theorem Linked.emit (h : s.Linked) (e : Emitted) : (s.emit e).Linked :=
  ⟨h.nodup, h.seq, h.queue, h.indexed, h.expected, h.answers, h.counts⟩

/-- A request of a function that does not wait. -/
theorem Linked.req (h : s.Linked) {cb : ℕ} (hcb : cb ∉ s.outstanding.map (·.cb)) :
    (s.req cb).Linked := by
  have hmap : (s.req cb).outstanding.map (·.cb) = s.outstanding.map (·.cb) ++ [cb] :=
    List.map_append
  refine ⟨?_, ?_, ?_, ?_, h.expected, h.answers, ?_⟩
  · rw [hmap, List.nodup_append_comm]
    exact List.nodup_cons.mpr ⟨hcb, h.nodup⟩
  · intro r hr
    rcases List.mem_append.mp hr with hr | hr
    · have hne : r.cb ≠ cb := fun he => hcb (he ▸ List.mem_map_of_mem hr)
      exact (Function.update_of_ne hne ..).trans (h.seq r hr)
    · rw [List.mem_singleton.mp hr]
      exact Function.update_self ..
  · have hqueue := h.queue
    have hindexed := h.indexed
    rw [hmap, ← hqueue]
    unfold Client.queue Client.Indexed at *
    show (match s.phase with
      | .handling (some _) i _ _ => (s.reqCallbacks ++ [cb]).eraseIdx i
      | _ => s.reqCallbacks ++ [cb]) = _
    split
    · rename_i hphase
      rw [hphase] at hindexed
      exact List.eraseIdx_append_of_lt_length hindexed _
    · rfl
  · have hindexed := h.indexed
    unfold Client.Indexed at *
    show (match s.phase with
      | .handling (some _) i _ _ => i < (s.reqCallbacks ++ [cb]).length
      | _ => True)
    split
    · rename_i hphase
      rw [hphase] at hindexed
      rw [List.length_append]
      exact Nat.lt_add_right _ hindexed
    · trivial
  · intro c
    rw [hmap, List.count_append]
    show _ = (s.asked ++ [cb]).count c
    rw [List.count_append, ← h.counts c]
    exact (Nat.add_assoc ..).symm

/-- What the search finds, for a message that answers exactly one request or finds none waiting. -/
theorem Linked.search_eq (h : s.Linked) (hidle : s.phase = .idle) {m : Message} {scripts : ℕ}
    (hfit : s.Fit (.message m scripts)) :
    ∃ cb i, search s.requestSeq m.requestSeq s.reqCallbacks 0 none = (cb, i) ∧
      cb.toList = s.expected m ∧
      (match cb with
        | some _ => i < s.reqCallbacks.length ∧ s.reqCallbacks.eraseIdx i =
          (s.outstanding.filter fun r => !r.matches m.requestSeq).map (·.cb)
        | none => s.reqCallbacks =
          (s.outstanding.filter fun r => !r.matches m.requestSeq).map (·.cb)) := by
  have hqueue : s.reqCallbacks = s.outstanding.map (·.cb) := by
    have hq := h.queue
    unfold Client.queue at hq
    rw [hidle] at hq
    exact hq
  rcases hfit with hnone | ⟨r, hr⟩
  · refine ⟨none, 0, ?_, ?_, ?_⟩
    · rw [hqueue, hnone]
      rfl
    · unfold Client.expected
      rw [hnone]
      rfl
    · dsimp only
      rw [hqueue, hnone]
      rfl
  · obtain ⟨pre, post, hsplit, hpre, hmatch, hpost⟩ := List.filter_eq_cons_iff.mp hr
    have hmatches : ∀ x ∈ s.outstanding, x.matches m.requestSeq = true ↔
        s.requestSeq x.cb = m.requestSeq := by
      intro x hx
      unfold Request.matches
      rw [h.seq x hx, decide_eq_true_eq]
    have hfilter : (s.outstanding.filter fun r => !r.matches m.requestSeq) = pre ++ post := by
      rw [hsplit, List.filter_append, List.filter_cons_of_neg (by simp [hmatch]),
        List.filter_eq_self.mpr fun x hx => by simpa using hpre x hx,
        List.filter_eq_self.mpr fun x hx => by simpa using List.filter_eq_nil_iff.mp hpost x hx]
    have hlist : s.reqCallbacks = pre.map (·.cb) ++ r.cb :: post.map (·.cb) := by
      rw [hqueue, hsplit, List.map_append, List.map_cons]
    refine ⟨some r.cb, 0 + (pre.map (·.cb)).length, ?_, ?_, ?_⟩
    · rw [hlist]
      refine search_some ?_ ?_ _ _ _
      · intro c hc
        obtain ⟨x, hx, rfl⟩ := List.mem_map.mp hc
        rw [Ne, ← hmatches x (by rw [hsplit]; exact List.mem_append_left _ hx)]
        exact hpre x hx
      · rw [← hmatches r (by rw [hsplit]; simp)]
        exact hmatch
    · unfold Client.expected
      rw [hr]
      rfl
    · dsimp only
      rw [hfilter, hlist, Nat.zero_add]
      constructor
      · simp
      · rw [List.eraseIdx_append_of_length_le (le_refl _)]
        simp

theorem Linked.receive (h : s.Linked) (hidle : s.phase = .idle) {m : Message} {scripts : ℕ}
    (hfit : s.Fit (.message m scripts)) : (s.receive m).Linked := by
  obtain ⟨cb, i, hsearch, hexpected, hfound⟩ := h.search_eq hidle hfit
  have hrun : s.receive m = { s with
      outstanding := s.outstanding.filter fun r => !r.matches m.requestSeq
      phase := .handling cb i (m.event ≠ .other) (s.expected m) } := by
    unfold Client.receive
    rw [hsearch]
  rw [hrun]
  refine ⟨h.nodup.sublist (List.filter_sublist.map _),
    fun r hr => h.seq r (List.mem_of_mem_filter hr), ?_, ?_, hexpected, h.answers, ?_⟩
  · cases cb with
    | none => exact hfound
    | some f => exact hfound.2
  · cases cb with
    | none => trivial
    | some f => exact hfound.1
  · intro c
    have hcounts := h.counts c
    rw [hidle] at hcounts
    have hsplit := (List.filter_append_perm (·.matches m.requestSeq) s.outstanding).map (·.cb)
    have hcount := hsplit.count_eq c
    rw [List.map_append, List.count_append] at hcount
    show _ + cb.toList.count c + _ = _
    rw [hexpected]
    unfold Client.expected
    simp only [Phase.pending, List.count_nil] at hcounts
    dsimp only
    omega

theorem Linked.handle (h : s.Linked) {scripts : ℕ} (hnew : s.requestSeq scripts = none)
    (e : Event) : (s.handle scripts e).Linked := by
  cases e with
  | connect =>
    refine (h.req fun hmem => ?_).emit _
    obtain ⟨r, hr, hcb⟩ := List.mem_map.mp hmem
    have hseq := h.seq r hr
    rw [hcb, hnew] at hseq
    cases hseq
  | «break» => exact h.emit _
  | afterCompile => exact h
  | scriptCollected => exact h
  | other => exact h

theorem Linked.dispatch (h : s.Linked) {cb : Option ℕ} {i : ℕ} {handled : Bool}
    {expected : List ℕ} (hphase : s.phase = .handling cb i handled expected) :
    (s.dispatch cb i handled expected).Linked := by
  have hqueue := h.queue
  have hexpected := h.expected
  unfold Client.queue at hqueue
  unfold Client.Expected at hexpected
  rw [hphase] at hqueue hexpected
  dsimp only at hexpected
  cases cb with
  | some f =>
    refine ⟨h.nodup, h.seq, hqueue, trivial, trivial, ?_, ?_⟩
    · intro a ha
      rcases List.mem_append.mp ha with ha | ha
      · exact h.answers a ha
      · rw [List.mem_singleton.mp ha]
        exact hexpected
    · intro c
      have hcounts := h.counts c
      rw [hphase] at hcounts
      show ((s.answers ++ [(⟨expected, [f]⟩ : Answer)]).flatMap (·.called)).count c +
        List.count c [] + (s.outstanding.map (·.cb)).count c = s.asked.count c
      rw [List.flatMap_append, List.count_append, ← hcounts]
      rfl
  | none =>
    have hanswers : ∀ a ∈ s.answers ++ [(⟨expected, []⟩ : Answer)], a.called = a.expected := by
      intro a ha
      rcases List.mem_append.mp ha with ha | ha
      · exact h.answers a ha
      · rw [List.mem_singleton.mp ha]
        exact hexpected
    have hcounts : ∀ c, ((s.answers ++ [(⟨expected, []⟩ : Answer)]).flatMap (·.called)).count c +
        List.count c [] + (s.outstanding.map (·.cb)).count c = s.asked.count c := by
      intro c
      have hcounts := h.counts c
      rw [hphase] at hcounts
      rw [List.flatMap_append, List.count_append, ← hcounts]
      rfl
    unfold Client.dispatch
    dsimp only
    split_ifs
    · exact ⟨h.nodup, h.seq, hqueue, trivial, trivial, hanswers, hcounts⟩
    · exact ⟨h.nodup, h.seq, hqueue, trivial, trivial, hanswers, hcounts⟩

theorem Linked.step {a : Action} (h : s.Linked) (hfit : s.Fit a) (ha : s.step a = some s') :
    s'.Linked := by
  cases a with
  | req cb =>
    obtain rfl := Option.some.inj ha
    exact h.req hfit
  | refused =>
    obtain rfl := Option.some.inj ha
    exact ⟨h.nodup, h.seq, h.queue, h.indexed, h.expected, h.answers, h.counts⟩
  | message m scripts =>
    dsimp only [Client.step] at ha
    split at ha
    · rename_i hidle
      split_ifs at ha with hnew
      obtain rfl := Option.some.inj ha
      exact (h.receive hidle hfit).handle hnew m.event
    · cases ha
  | dispatch =>
    dsimp only [Client.step] at ha
    split at ha
    · rename_i hphase
      obtain rfl := Option.some.inj ha
      exact h.dispatch hphase
    · cases ha
  | finish surplus =>
    dsimp only [Client.step] at ha
    split at ha
    · rename_i hphase
      obtain rfl := Option.some.inj ha
      have hqueue := h.queue
      have hcounts := h.counts
      unfold Client.queue at hqueue
      rw [hphase] at hqueue hcounts
      exact ⟨h.nodup, h.seq, hqueue, trivial, trivial, h.answers, hcounts⟩
    · cases ha

theorem linked_new : new.Linked where
  nodup := List.nodup_nil
  seq := by simp [new]
  queue := rfl
  indexed := trivial
  expected := trivial
  answers := by simp [new]
  counts _ := rfl

/-- Exactly when the search finds what the message answers. -/
theorem search_iff (h : s.Linked) (hidle : s.phase = .idle) (m : Message) (scripts : ℕ) :
    (search s.requestSeq m.requestSeq s.reqCallbacks 0 none).1.toList = s.expected m ↔
      s.Fit (.message m scripts) := by
  constructor
  · intro hfound
    by_contra hfit
    obtain ⟨hne, hmany⟩ := not_or.mp hfit
    have hqueue := h.queue
    unfold queue at hqueue
    rw [hidle] at hqueue
    dsimp only at hqueue
    unfold expected at hfound
    cases hfilter : s.outstanding.filter (·.matches m.requestSeq) with
    | nil =>
      -- the loop runs off the end, and the last callback is taken
      have hnone : ∀ c ∈ s.reqCallbacks, s.requestSeq c ≠ m.requestSeq := by
        rw [hqueue]
        intro c hc
        obtain ⟨r, hr, rfl⟩ := List.mem_map.mp hc
        have hr' := List.filter_eq_nil_iff.mp hfilter r hr
        unfold Request.matches at hr'
        rw [h.seq r hr]
        simpa using hr'
      have hcs : s.reqCallbacks ≠ [] := by
        rw [hqueue]
        exact fun hnil => hne (List.map_eq_nil_iff.mp hnil)
      rw [search_none hnone hcs, hfilter, List.getLast?_eq_getLast_of_ne_nil hcs] at hfound
      cases hfound
    | cons r rs =>
      cases rs with
      | nil => exact hmany ⟨r, hfilter⟩
      | cons r' rs =>
        rw [hfilter] at hfound
        have hlen := congrArg List.length hfound
        have hle := Option.length_toList_le
          (o := (search s.requestSeq m.requestSeq s.reqCallbacks 0 none).1)
        simp only [List.map_cons, List.length_cons] at hlen
        omega
  · intro hfit
    obtain ⟨cb, i, hsearch, hexpected, _⟩ := h.search_eq hidle hfit
    rw [hsearch]
    exact hexpected

/-- In a run in which every step fits, messages call the right callbacks and no callback is called
twice; and of the messages that can come then, the search finds what they answer exactly when they
fit. -/
theorem faithful_of_reach (h : Lib.Reach Client.step Client.Fit new s) :
    s.Faithful ∧ (s.phase = .idle → ∀ m scripts,
      (search s.requestSeq m.requestSeq s.reqCallbacks 0 none).1.toList = s.expected m ↔
        s.Fit (.message m scripts)) := by
  have hlinked : s.Linked := h.invariant linked_new fun _ _ _ hs hfit ha => hs.step hfit ha
  refine ⟨⟨hlinked.answers, fun cb => ?_⟩,
    fun hidle m scripts => search_iff hlinked hidle m scripts⟩
  rw [← hlinked.counts cb]
  omega

theorem faithful_of_reach_response :
    ∃ s, Lib.run Client.step new [.req 0, .message ⟨.other, some 1⟩ 1, .dispatch] = some s ∧
      s.Faithful := by
  refine ⟨_, rfl, (faithful_of_reach (.tail (.tail (.tail .refl ⟨.req 0, ?_, rfl⟩)
    ⟨.message ⟨.other, some 1⟩ 1, ?_, rfl⟩) ⟨.dispatch, trivial, rfl⟩)).1⟩
  · simp [Client.Fit, new]
  · exact Or.inr ⟨⟨1, 0⟩, rfl⟩

/-- The event of a breakpoint calls the callback of a request that waits. -/
theorem not_faithful :
    ¬ ∀ s, Lib.Reach Client.step (fun _ _ => True) new s → s.Faithful := by
  intro h
  have hrun : Lib.run Client.step new [.req 0, .message ⟨.break, none⟩ 1, .dispatch] = some _ := rfl
  have hfaithful := h _ (Lib.reach_of_run hrun fun _ _ => trivial)
  have hmem : (⟨[], [0]⟩ : Answer) ∈ [(⟨[], [0]⟩ : Answer)] := List.mem_singleton_self _
  exact absurd (hfaithful.answers ⟨[], [0]⟩ hmem) (by decide)

end Client

end NodeJS.Debugger
