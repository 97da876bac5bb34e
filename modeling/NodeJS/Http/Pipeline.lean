import NodeJS.Http.Server
import NodeJS.Lib.Reach

/-! The order in which a server connection sends its responses. -/
namespace NodeJS.Http
open Lib
variable {kernel : Net.Kernel}

/-! ### What must be seen on a connection -/

def Event.tag : Event → Option ℕ
  | .wrote k _ _ => some k
  | .finish _ _ _ => none

/-- The end of a response that is the last one of the connection. -/
def Event.isLast : Event → Bool
  | .wrote _ _ _ => false
  | .finish _ last _ => last

/-- The responses write one after the other in the order of the requests, the request that is
answered is the first of `incoming`, and nothing is written by a later response after the last
one has finished. -/
structure Orderly (events : List Event) : Prop where
  sorted : (events.filterMap Event.tag).Pairwise (· ≤ ·)
  heads : ∀ k last incoming, Event.finish k last incoming ∈ events →
    incoming = [] ∨ incoming.head? = some k
  quiet : events.Pairwise fun e e' => ∀ k incoming j chunk encoding,
    e = .finish k true incoming → e' = .wrote j chunk encoding → j ≤ k

def WritesOf (k : ℕ) (events : List Event) : Prop :=
  ∀ e ∈ events, ∃ chunk encoding, e = .wrote k chunk encoding

theorem WritesOf.tags {k : ℕ} {events : List Event} (h : WritesOf k events) :
    ∀ j ∈ events.filterMap Event.tag, j = k := by
  intro j hj
  obtain ⟨e, he, htag⟩ := List.mem_filterMap.mp hj
  obtain ⟨chunk, encoding, rfl⟩ := h e he
  exact (Option.some.inj htag).symm

theorem WritesOf.isLast {k : ℕ} {events : List Event} (h : WritesOf k events) :
    events.any Event.isLast = false := by
  rw [List.any_eq_false]
  intro e he
  obtain ⟨chunk, encoding, rfl⟩ := h e he
  exact Bool.false_ne_true

theorem Orderly.append_writes {events ws : List Event} (h : Orderly events) {k : ℕ}
    (hopen : events.any Event.isLast = false)
    (htags : ∀ j ∈ events.filterMap Event.tag, j ≤ k) (hws : WritesOf k ws) :
    Orderly (events ++ ws) := by
  refine ⟨?_, ?_, ?_⟩
  · rw [List.filterMap_append, List.pairwise_append]
    refine ⟨h.sorted, ?_, ?_⟩
    · apply List.Pairwise.imp_of_mem (R := fun _ _ => True)
      · intro a b ha hb _
        rw [hws.tags a ha, hws.tags b hb]
      · exact List.pairwise_of_forall fun _ _ => trivial
    · intro a ha b hb
      rw [hws.tags b hb]
      exact htags a ha
  · intro j last incoming hmem
    rcases List.mem_append.mp hmem with hmem | hmem
    · exact h.heads j last incoming hmem
    · obtain ⟨chunk, encoding, he⟩ := hws _ hmem
      cases he
  · rw [List.pairwise_append]
    refine ⟨h.quiet, ?_, ?_⟩
    · apply List.Pairwise.imp_of_mem (R := fun _ _ => True)
      · intro a b ha hb _ j incoming j' chunk encoding he
        obtain ⟨chunk', encoding', ha'⟩ := hws a ha
        rw [ha'] at he
        cases he
      · exact List.pairwise_of_forall fun _ _ => trivial
    · intro a ha b _ j incoming j' chunk encoding he
      rw [List.any_eq_false] at hopen
      rw [he] at ha
      exact absurd rfl (hopen _ ha)

theorem Orderly.append_finish {events : List Event} (h : Orderly events) {k : ℕ}
    {incoming : List ℕ} (hhead : incoming = [] ∨ incoming.head? = some k) (last : Bool) :
    Orderly (events ++ [.finish k last incoming]) := by
  refine ⟨?_, ?_, ?_⟩
  · have hnone : [Event.finish k last incoming].filterMap Event.tag = [] := rfl
    rw [List.filterMap_append, hnone, List.append_nil]
    exact h.sorted
  · intro j last' incoming' hmem
    rcases List.mem_append.mp hmem with hmem | hmem
    · exact h.heads j last' incoming' hmem
    · rw [List.mem_singleton] at hmem
      cases hmem
      exact hhead
  · rw [List.pairwise_append]
    refine ⟨h.quiet, List.pairwise_singleton _ _, ?_⟩
    intro a _ b hb j incoming' j' chunk encoding _ he
    rw [List.mem_singleton.mp hb] at he
    cases he

/-! ### The states of a connection -/

/-- A response with `_last` has finished. -/
def Server.closing (s : Server) : Bool := s.events.any Event.isLast

/-- The requests from `k` on are in `incoming`, or all are taken out of it. -/
def Server.Whole (s : Server) (k : ℕ) : Prop :=
  s.incoming = List.range' k (s.responses.length - k) ∨ (s.incoming = [] ∧ s.ended = true)

/-- The response `k` has the socket, and the later ones wait for it. -/
structure Serving (s : Server) (k : ℕ) : Prop where
  message : s.httpMessage = some k
  lt : k < s.responses.length
  outgoing : s.outgoing = List.range' (k + 1) (s.responses.length - (k + 1))
  incoming : s.aborting = none → s.Whole k
  tags : ∀ j ∈ s.events.filterMap Event.tag, j ≤ k
  closing : s.closing = false

structure Idle (s : Server) : Prop where
  message : s.httpMessage = none
  outgoing : s.outgoing = []
  incoming : s.incoming = []
  tags : ∀ j ∈ s.events.filterMap Event.tag, j < s.responses.length
  closing : s.closing = false

/-- The last response has finished. A response that gets the socket now cannot use it. -/
structure Shut (s : Server) : Prop where
  closing : s.closing = true
  lt : ∀ k, s.httpMessage = some k → k < s.responses.length
  stuck : ∀ k res, s.httpMessage = some k → s.responses[k]? = some res →
    s.net.sock.writable = false ∧ (∀ text, res.header = some text → text ≠ []) ∧
      (res.headerSent = true → res.output ≠ [])

structure Inv (s : Server) : Prop where
  attached : ∀ k res, s.responses[k]? = some res →
    (res.attached = true ↔ s.httpMessage = some k)
  aborting : s.aborting ≠ none → s.ended = true
  orderly : Orderly s.events
  phase : Idle s ∨ (∃ k, Serving s k) ∨ Shut s

theorem inv_new (pool : Net.Pool) (unix : Bool) : Inv (Server.new pool unix) := by
  refine ⟨?_, fun h => absurd rfl h, ⟨List.Pairwise.nil, ?_, List.Pairwise.nil⟩,
    Or.inl ⟨rfl, rfl, rfl, ?_, rfl⟩⟩
  · intro k res hres
    simp [Server.new] at hres
  · intro k last incoming hmem
    cases hmem
  · intro j hj
    cases hj

/-! ### Methods of a response -/

/-- A method that keeps whatever `_send` keeps. -/
def Keeping {α : Type} (x : M (Peer kernel) α) : Prop := ∀ P, Stable P → Preserves P x

/-- The response has the socket and has written to it. -/
def Live (k : ℕ) (events : List Event) (e : Endpoint (Peer kernel)) : Prop :=
  e.msg.attached = true ∧ e.sock.owner = k ∧ ∃ ws, WritesOf k ws ∧ e.sock.events = events ++ ws

theorem loose_live (k : ℕ) (events : List Event) :
    Loose (Live k events : Endpoint (Peer kernel) → Prop) := by
  constructor
  · intro s data encoding h
    obtain ⟨hattached, howner, ws, hws, hevents⟩ := h
    refine ⟨hattached, howner, ws ++ [.wrote k data encoding], ?_, ?_⟩
    · intro e he
      rcases List.mem_append.mp he with he | he
      · exact hws e he
      · exact ⟨data, encoding, List.mem_singleton.mp he⟩
    · show s.sock.events ++ [.wrote s.sock.owner data encoding] = _
      rw [hevents, howner, List.append_assoc]
  · intro s m h hm
    exact ⟨hm.trans h.1, h.2⟩

/-- A method leaves a state in which what it keeps holds. -/
theorem run_spec {α : Type} {x : M (Peer kernel) α} {P : Endpoint (Peer kernel) → Prop}
    {s : Server} {k : ℕ} {res : Outgoing} (hres : s.responses[k]? = some res)
    (hafter : P (after x ⟨res, ⟨s.net, k, s.events⟩⟩)) :
    ∃ e, P e ∧ (s.run kernel k x).2 = { s with
        net := e.sock.net, events := e.sock.events, responses := s.responses.set k e.msg } ∧
      ∀ a, (s.run kernel k x).1 = some a → x ⟨res, ⟨s.net, k, s.events⟩⟩ = .ok a e := by
  unfold after at hafter
  unfold Server.run
  rw [hres]
  dsimp only
  cases hrun : x ⟨res, ⟨s.net, k, s.events⟩⟩ with
  | ok a e =>
    rw [hrun] at hafter
    refine ⟨e, hafter, rfl, ?_⟩
    intro a' ha
    rw [Option.some.inj ha]
  | error e s' =>
    rw [hrun] at hafter
    refine ⟨s', hafter, rfl, ?_⟩
    intro a' ha
    cases ha

theorem attached_set {s : Server} {k : ℕ} (h : ∀ j res, j ≠ k → s.responses[j]? = some res →
    (res.attached = true ↔ s.httpMessage = some j)) {m : Outgoing}
    (hm : m.attached = true ↔ s.httpMessage = some k) :
    ∀ j res, (s.responses.set k m)[j]? = some res →
      (res.attached = true ↔ s.httpMessage = some j) := by
  intro j res hres
  rw [List.getElem?_set] at hres
  split_ifs at hres with hj hk
  · rw [← Option.some.inj hres, ← hj]
    exact hm
  · exact h j res (Ne.symm hj) hres

/-- A method of a response without the socket. -/
theorem Inv.set_away {s : Server} (h : Inv s) {k : ℕ} (hk : s.httpMessage ≠ some k)
    {m : Outgoing} (hm : m.attached = false) :
    Inv { s with responses := s.responses.set k m } := by
  refine ⟨attached_set (fun j res _ => h.attached j res) (by simp [hm, hk]), h.aborting, h.orderly,
    ?_⟩
  rcases h.phase with hidle | ⟨j, hserving⟩ | hshut
  · refine Or.inl ⟨hidle.message, hidle.outgoing, hidle.incoming, ?_, hidle.closing⟩
    rw [List.length_set]
    exact hidle.tags
  · refine Or.inr (Or.inl ⟨j, hserving.message, ?_, ?_, ?_, hserving.tags, hserving.closing⟩)
    · rw [List.length_set]
      exact hserving.lt
    · rw [List.length_set]
      exact hserving.outgoing
    · unfold Server.Whole
      rw [List.length_set]
      exact hserving.incoming
  · refine Or.inr (Or.inr ⟨hshut.closing, ?_, ?_⟩)
    · rw [List.length_set]
      exact hshut.lt
    · intro j res hj hres
      have hne : k ≠ j := by
        intro hkj
        rw [hkj] at hk
        exact hk hj
      rw [List.getElem?_set_ne hne] at hres
      exact hshut.stuck j res hj hres

/-- A method of the response that has the socket. -/
theorem Serving.after {s : Server} {k : ℕ} (hs : Serving s k)
    (ha : ∀ j res, j ≠ k → s.responses[j]? = some res →
      (res.attached = true ↔ s.httpMessage = some j))
    (hb : s.aborting ≠ none → s.ended = true) (ho : Orderly s.events)
    {e : Endpoint (Peer kernel)} (he : Live k s.events e) :
    Inv { s with
        net := e.sock.net, events := e.sock.events, responses := s.responses.set k e.msg } ∧
      Serving { s with
        net := e.sock.net, events := e.sock.events, responses := s.responses.set k e.msg } k := by
  obtain ⟨hattached, -, ws, hws, hevents⟩ := he
  have hserving : Serving { s with
      net := e.sock.net, events := e.sock.events, responses := s.responses.set k e.msg } k := by
    refine ⟨hs.message, ?_, ?_, ?_, ?_, ?_⟩
    · rw [List.length_set]
      exact hs.lt
    · rw [List.length_set]
      exact hs.outgoing
    · unfold Server.Whole
      rw [List.length_set]
      exact hs.incoming
    · intro j hj
      rw [hevents, List.filterMap_append] at hj
      rcases List.mem_append.mp hj with hj | hj
      · exact hs.tags j hj
      · exact (hws.tags j hj).le
    · show e.sock.events.any Event.isLast = false
      rw [hevents, List.any_append, hws.isLast, Bool.or_false]
      exact hs.closing
  refine ⟨⟨attached_set ha ?_, hb, ?_, Or.inr (Or.inl ⟨k, hserving⟩)⟩, hserving⟩
  · rw [hattached, hs.message]
    simp
  · show Orderly e.sock.events
    rw [hevents]
    exact ho.append_writes hs.closing hs.tags hws

/-- A response that has the socket of a connection that is shut stays stuck. -/
theorem Shut.after {s : Server} (h : Inv s) (hs : Shut s) {k : ℕ} (hk : s.httpMessage = some k)
    {e : Endpoint (Peer kernel)} (he : Blocked true true ⟨s.net, k, s.events⟩ e) :
    Inv { s with
      net := e.sock.net, events := e.sock.events, responses := s.responses.set k e.msg } := by
  have hsock := he.sock_eq
  have hwritable : s.net.sock.writable = false := by
    have hblocked := he.blocked
    rw [Bool.true_and] at hblocked
    exact hblocked
  rw [hsock]
  refine ⟨attached_set (fun j res _ => h.attached j res) (by simp [he.attached_eq, hk]), h.aborting,
    h.orderly, Or.inr (Or.inr ⟨hs.closing, ?_, ?_⟩)⟩
  · rw [List.length_set]
    exact hs.lt
  · intro j res hj hres
    obtain rfl : k = j := Option.some.inj (hk.symm.trans hj)
    rw [List.getElem?_set_self (hs.lt k hk)] at hres
    rw [← Option.some.inj hres]
    exact ⟨hwritable, he.header rfl, he.output rfl⟩

/-- Every method keeps the invariant. If it leaves its response with the socket and with nothing
in the queue, the connection is serving it. -/
theorem Inv.run {α : Type} {x : M (Peer kernel) α} {s : Server} (h : Inv s) (hx : Keeping x)
    {k : ℕ} {res : Outgoing} (hres : s.responses[k]? = some res) :
    Inv (s.run kernel k x).2 ∧ ∀ a e, (s.run kernel k x).1 = some a →
      x ⟨res, ⟨s.net, k, s.events⟩⟩ = .ok a e →
      e.msg.attached = true → e.msg.output = [] → e.msg.headerSent = true →
      Serving (s.run kernel k x).2 k := by
  by_cases hk : s.httpMessage = some k
  · have hattached : res.attached = true := (h.attached k res hres).mpr hk
    rcases h.phase with hidle | ⟨j, hserving⟩ | hshut
    · rw [hidle.message] at hk
      cases hk
    · obtain rfl : j = k := Option.some.inj (hserving.message.symm.trans hk)
      have hstart : Live j s.events (⟨res, ⟨s.net, j, s.events⟩⟩ : Endpoint (Peer kernel)) :=
        ⟨hattached, rfl, [], by simp [WritesOf], by simp⟩
      obtain ⟨e, he, hrun, -⟩ := run_spec hres (hx _ (loose_live j s.events).stable _ hstart)
      obtain ⟨hinv, hserving'⟩ :=
        hserving.after (fun i m _ => h.attached i m) h.aborting h.orderly he
      rw [hrun]
      exact ⟨hinv, fun _ _ _ _ _ _ _ => hserving'⟩
    · obtain ⟨hwritable, hheader, houtput⟩ := hshut.stuck k res hk hres
      have hstart : Blocked true true (⟨s.net, k, s.events⟩ : Peer kernel)
          ⟨res, ⟨s.net, k, s.events⟩⟩ :=
        ⟨rfl, hattached, hwritable, fun _ => hheader, fun _ => houtput⟩
      obtain ⟨e, he, hrun, hresult⟩ := run_spec hres (hx _ (Blocked.stable true true _) _ hstart)
      constructor
      · rw [hrun]
        exact hshut.after h hk he
      · intro a e' ha hok _ hout hsent
        have hsame := (hresult a ha).symm.trans hok
        injection hsame with _ hsame
        rw [← hsame] at hout hsent
        exact absurd hout (he.output rfl hsent)
  · have hattached : res.attached = false := by
      rw [← Bool.not_eq_true, h.attached k res hres]
      exact hk
    have hstart : Blocked false false (⟨s.net, k, s.events⟩ : Peer kernel)
        ⟨res, ⟨s.net, k, s.events⟩⟩ := by
      refine ⟨rfl, hattached, rfl, ?_, ?_⟩
      · intro hfalse
        cases hfalse
      · intro hfalse
        cases hfalse
    obtain ⟨e, he, hrun, hresult⟩ := run_spec hres (hx _ (Blocked.stable false false _) _ hstart)
    constructor
    · rw [hrun, he.sock_eq]
      exact h.set_away hk he.attached_eq
    · intro a e' ha hok hatt _ _
      have hsame := (hresult a ha).symm.trans hok
      injection hsame with _ hsame
      rw [← hsame, he.attached_eq] at hatt
      cases hatt

theorem Inv.keeping {α : Type} {x : M (Peer kernel) α} {s : Server} (h : Inv s) (hx : Keeping x)
    (k : ℕ) : Inv (s.run kernel k x).2 := by
  cases hres : s.responses[k]? with
  | none =>
    unfold Server.run
    rw [hres]
    exact h
  | some res => exact (h.run hx hres).1

/-! ### The handover of the socket -/

/-- The socket is free for the response `k`; those before it are done. -/
structure Released (s : Server) (k : ℕ) : Prop where
  message : s.httpMessage = none
  le : k ≤ s.responses.length
  away : ∀ (j : ℕ) (res : Outgoing), s.responses[j]? = some res → res.attached = false
  orderly : Orderly s.events
  aborting : s.aborting ≠ none → s.ended = true
  outgoing : s.outgoing = List.range' k (s.responses.length - k)
  incoming : s.Whole k
  tags : ∀ j ∈ s.events.filterMap Event.tag, j < k
  closing : s.closing = false

/-- A method leaves the variables of the connection as they are. -/
theorem run_variables {α : Type} (s : Server) (k : ℕ) (x : M (Peer kernel) α) :
    ∃ net events responses, (s.run kernel k x).2 =
      { s with net := net, events := events, responses := responses } := by
  unfold Server.run
  split
  · exact ⟨_, _, _, rfl⟩
  · split
    · exact ⟨_, _, _, rfl⟩
    · exact ⟨_, _, _, rfl⟩

theorem assign_free {s : Server} (h : s.httpMessage = none) (k : ℕ) :
    assign kernel s k = Server.run kernel { s with httpMessage := some k } k assignSocket := by
  unfold assign
  rw [h]
  rfl

theorem Released.idle {s : Server} {k : ℕ} (h : Released s k) (hk : s.responses.length = k) :
    Inv s := by
  have hnone : List.range' k (s.responses.length - k) = [] := by simp [hk]
  constructor
  · intro j res hres
    rw [h.away j res hres, h.message]
    simp
  · exact h.aborting
  · exact h.orderly
  · left
    constructor
    · exact h.message
    · rw [h.outgoing, hnone]
    · rcases h.incoming with hin | ⟨hin, -⟩
      · rw [hin, hnone]
      · exact hin
    · rw [hk]
      exact h.tags
    · exact h.closing

/-- A response that gets the socket sends what it has queued. The list `outgoing` has already
lost it. -/
theorem Released.assign (kernel : Net.Kernel) {s : Server} {k : ℕ} (h : Released s k)
    (hk : k < s.responses.length) :
    Inv (assign kernel { s with outgoing := s.outgoing.tail } k).2 ∧
      Serving (assign kernel { s with outgoing := s.outgoing.tail } k).2 k ∧
      (assign kernel { s with outgoing := s.outgoing.tail } k).2.Whole k := by
  have hserving : Serving { s with httpMessage := some k, outgoing := s.outgoing.tail } k := by
    constructor
    · rfl
    · exact hk
    · show s.outgoing.tail = _
      obtain ⟨m, hm⟩ : ∃ m, s.responses.length - k = m + 1 := ⟨s.responses.length - k - 1, by omega⟩
      have hlen : s.responses.length - (k + 1) = m := by omega
      rw [h.outgoing, hm, hlen, List.range'_succ, List.tail_cons]
    · exact fun _ => h.incoming
    · intro j hj
      exact (h.tags j hj).le
    · exact h.closing
  obtain ⟨res, hres⟩ : ∃ res, s.responses[k]? = some res := ⟨_, List.getElem?_eq_getElem hk⟩
  have hflush : Live k s.events (after assignSocket
      (⟨res, ⟨s.net, k, s.events⟩⟩ : Endpoint (Peer kernel))) := by
    have hstart : Live k s.events
        (⟨{ res with attached := true }, ⟨s.net, k, s.events⟩⟩ : Endpoint (Peer kernel)) :=
      ⟨rfl, rfl, [], by simp [WritesOf], by simp⟩
    exact (loose_live k s.events).through.flush _ hstart
  rw [assign_free (s := { s with outgoing := s.outgoing.tail }) h.message]
  obtain ⟨e, he, hrun, -⟩ := run_spec
    (s := { s with httpMessage := some k, outgoing := s.outgoing.tail }) hres hflush
  rw [hrun]
  rw [← and_assoc]
  refine ⟨hserving.after (fun j m hj hm => ?_) h.aborting h.orderly he, ?_⟩
  · rw [h.away j m hm]
    simp [Ne.symm hj]
  · unfold Server.Whole
    rw [List.length_set]
    exact h.incoming

/-- The request that is answered is the first of `incoming`. -/
theorem Serving.head {s : Server} {k : ℕ} (hs : Serving s k) (hwhole : s.Whole k) :
    s.incoming = [] ∨ s.incoming.head? = some k := by
  rcases hwhole with hin | ⟨hin, -⟩
  · right
    have hlt := hs.lt
    obtain ⟨m, hm⟩ : ∃ m, s.responses.length - k = m + 1 := ⟨s.responses.length - k - 1, by omega⟩
    rw [hin, hm, List.range'_succ, List.head?_cons]
  · exact Or.inl hin

theorem Serving.rest {s : Server} {k : ℕ} (hs : Serving s k) (hwhole : s.Whole k) :
    s.incoming.tail = List.range' (k + 1) (s.responses.length - (k + 1)) ∨
      (s.incoming.tail = [] ∧ s.ended = true) := by
  rcases hwhole with hin | ⟨hin, hended⟩
  · left
    have hlt := hs.lt
    obtain ⟨m, hm⟩ : ∃ m, s.responses.length - k = m + 1 := ⟨s.responses.length - k - 1, by omega⟩
    have hlen : s.responses.length - (k + 1) = m := by omega
    rw [hin, hm, hlen, List.range'_succ, List.tail_cons]
  · right
    rw [hin]
    exact ⟨rfl, hended⟩

theorem Serving.detached {s : Server} (h : Inv s) {k : ℕ} (hs : Serving s k) (res : Outgoing)
    (j : ℕ) (m : Outgoing) (hm : (s.responses.set k (detachSocket res))[j]? = some m) :
    m.attached = false := by
  rw [List.getElem?_set] at hm
  split_ifs at hm with hj hlt
  · rw [← Option.some.inj hm]
    rfl
  · rw [← Bool.not_eq_true, h.attached j m hm, hs.message]
    simp [hj]

/-- The handler of `'finish'` closes the connection or frees the socket for the next
response. -/
theorem Serving.release (kernel : Net.Kernel) {s : Server} (h : Inv s) {k : ℕ} (hs : Serving s k)
    (hwhole : s.Whole k) :
    (∃ s', release kernel s k = (true, s') ∧ Released s' (k + 1) ∧ s'.outgoing = s.outgoing) ∨
      ∃ s', release kernel s k = (false, s') ∧ Inv s' := by
  obtain ⟨res, hres⟩ : ∃ res, s.responses[k]? = some res := ⟨_, List.getElem?_eq_getElem hs.lt⟩
  have horderly := h.orderly.append_finish (hs.head hwhole) res.last
  have hclosing : (s.events ++ [Event.finish k res.last s.incoming]).any Event.isLast =
      res.last := by
    have hopen : s.events.any Event.isLast = false := hs.closing
    rw [List.any_append, hopen]
    simp [Event.isLast]
  unfold Http.release
  rw [hres]
  dsimp only
  rw [if_pos (hs.head hwhole), if_pos hs.message]
  split_ifs with hlast
  · right
    refine ⟨_, rfl, ?_, h.aborting, horderly, Or.inr (Or.inr ?_)⟩
    · intro j m hm
      rw [hs.detached h res j m hm]
      simp
    · constructor
      · exact hclosing.trans hlast
      · intro j hj
        cases hj
      · intro j m hj
        cases hj
  · left
    refine ⟨_, rfl, ?_, rfl⟩
    constructor
    · rfl
    · show k + 1 ≤ (s.responses.set k (detachSocket res)).length
      rw [List.length_set]
      exact hs.lt
    · exact hs.detached h res
    · exact horderly
    · exact h.aborting
    · show s.outgoing = List.range' (k + 1) ((s.responses.set k _).length - (k + 1))
      rw [List.length_set]
      exact hs.outgoing
    · show s.incoming.tail = List.range' (k + 1) ((s.responses.set k _).length - (k + 1)) ∨
        (s.incoming.tail = [] ∧ s.ended = true)
      rw [List.length_set]
      exact hs.rest hwhole
    · intro j hj
      have hold : j ∈ s.events.filterMap Event.tag := by simpa [Event.tag] using hj
      have hle := hs.tags j hold
      omega
    · rw [Bool.not_eq_true] at hlast
      exact hclosing.trans hlast

theorem Serving.onFinish {s : Server} (h : Inv s) {k : ℕ} (hs : Serving s k) (hwhole : s.Whole k) :
    Inv (onFinish kernel s.outgoing k s) := by
  obtain ⟨queue, hqueue⟩ : ∃ queue, s.outgoing = queue := ⟨_, rfl⟩
  rw [hqueue]
  induction queue generalizing s k with
  | nil =>
    unfold Http.onFinish
    rcases hs.release kernel h hwhole with ⟨s', hrel, hfree, hout⟩ | ⟨s', hrel, hinv⟩
    · rw [hrel]
      apply hfree.idle
      have hle := hfree.le
      have hnil := hfree.outgoing
      rw [hout, hqueue] at hnil
      have hzero := congrArg List.length hnil
      rw [List.length_nil, List.length_range'] at hzero
      omega
    · rw [hrel]
      exact hinv
  | cons j queue ih =>
    unfold Http.onFinish
    rcases hs.release kernel h hwhole with ⟨s', hrel, hfree, hout⟩ | ⟨s', hrel, hinv⟩
    · rw [hrel]
      dsimp only
      have hcons := hfree.outgoing
      rw [hout, hqueue] at hcons
      have hlt : k + 1 < s'.responses.length := by
        have hlen := congrArg List.length hcons
        rw [List.length_cons, List.length_range'] at hlen
        omega
      obtain ⟨m, hm⟩ : ∃ m, s'.responses.length - (k + 1) = m + 1 :=
        ⟨s'.responses.length - (k + 1) - 1, by omega⟩
      rw [hm, List.range'_succ] at hcons
      obtain ⟨rfl, hrest⟩ := List.cons_eq_cons.mp hcons
      obtain ⟨hinv, hserving, hwhole'⟩ := hfree.assign kernel hlt
      have htail : s'.outgoing.tail = queue := by rw [hout, hqueue, List.tail_cons]
      rw [htail] at hinv hserving hwhole'
      have houtgoing :
          (assign kernel { s' with outgoing := queue } (k + 1)).2.outgoing = queue := by
        rw [assign_free (s := { s' with outgoing := queue }) hfree.message]
        obtain ⟨net, events, responses, heq⟩ := @run_variables kernel _
          { s' with httpMessage := some (k + 1), outgoing := queue } (k + 1) assignSocket
        rw [heq]
      generalize assign kernel { s' with outgoing := queue } (k + 1) = r at *
      obtain ⟨result, s''⟩ := r
      cases result with
      | none => exact hinv
      | some flushed =>
        cases flushed with
        | finish => exact ih hinv hserving hwhole' houtgoing
        | blocked => exact hinv
        | drain => exact hinv
        | idle => exact hinv
    · rw [hrel]
      exact hinv

/-! ### Requests that come in -/

theorem Inv.message_lt {s : Server} (h : Inv s) {k : ℕ} (hk : s.httpMessage = some k) :
    k < s.responses.length := by
  rcases h.phase with hidle | ⟨j, hserving⟩ | hshut
  · rw [hidle.message] at hk
    cases hk
  · obtain rfl : j = k := Option.some.inj (hserving.message.symm.trans hk)
    exact hserving.lt
  · exact hshut.lt k hk

theorem push_length (s : Server) (req : Request) :
    (s.push req).responses.length = s.responses.length + 1 := by
  unfold Server.push
  rw [List.length_append, List.length_singleton]

theorem lt_push (s : Server) (req : Request) :
    s.responses.length < (s.push req).responses.length := by
  rw [push_length]
  exact Nat.lt_succ_self _

/-- The responses from `k` on, with the new one. -/
theorem range'_push (s : Server) (req : Request) {k : ℕ} (hk : k ≤ s.responses.length) :
    List.range' k ((s.push req).responses.length - k) =
      List.range' k (s.responses.length - k) ++ [s.responses.length] := by
  have hlen : s.responses.length + 1 - k = s.responses.length - k + 1 := by omega
  have hlast : k + (s.responses.length - k) = s.responses.length := by omega
  rw [push_length, hlen, List.range'_1_concat, hlast]

theorem push_old (s : Server) (req : Request) {k : ℕ} (hk : k < s.responses.length) :
    (s.push req).responses[k]? = s.responses[k]? := List.getElem?_append_left hk

theorem push_new (s : Server) (req : Request) :
    (s.push req).responses[s.responses.length]? = some req.response := by
  unfold Server.push
  rw [List.getElem?_concat_length]

theorem push_cases (s : Server) (req : Request) {k : ℕ} {res : Outgoing}
    (h : (s.push req).responses[k]? = some res) :
    s.responses[k]? = some res ∨ (k = s.responses.length ∧ res = req.response) := by
  obtain ⟨hlt, -⟩ := List.getElem?_eq_some_iff.mp h
  rw [push_length] at hlt
  by_cases hk : k = s.responses.length
  · right
    rw [hk, push_new] at h
    exact ⟨hk, (Option.some.inj h).symm⟩
  · left
    rw [push_old s req (by omega)] at h
    exact h

theorem Inv.push_attached {s : Server} (h : Inv s) (req : Request) :
    ∀ (k : ℕ) (res : Outgoing), (s.push req).responses[k]? = some res →
      (res.attached = true ↔ s.httpMessage = some k) := by
  intro k res hres
  rcases push_cases s req hres with hold | ⟨hk, hnew⟩
  · exact h.attached k res hold
  · constructor
    · intro hattached
      rw [hnew] at hattached
      cases hattached
    · intro hmessage
      have := h.message_lt hmessage
      omega

/-- A request that comes in while another is answered. -/
theorem Serving.push {s : Server} (h : Inv s) {k : ℕ} (hs : Serving s k) (he : s.ended = false)
    (req : Request) :
    Inv { s.push req with outgoing := s.outgoing ++ [s.responses.length] } := by
  have hlt := hs.lt
  constructor
  · exact h.push_attached req
  · exact h.aborting
  · exact h.orderly
  · right
    left
    refine ⟨k, hs.message, ?_, ?_, fun hnone => Or.inl ?_, hs.tags, hs.closing⟩
    · exact hlt.trans (lt_push s req)
    · show s.outgoing ++ [s.responses.length] =
        List.range' (k + 1) ((s.push req).responses.length - (k + 1))
      rw [range'_push s req hlt, ← hs.outgoing]
    · show s.incoming ++ [s.responses.length] =
        List.range' k ((s.push req).responses.length - k)
      rcases hs.incoming hnone with hin | ⟨-, hended⟩
      · rw [range'_push s req hlt.le, ← hin]
      · rw [he] at hended
        cases hended

/-- A request that comes in on an idle connection. -/
theorem Idle.push {s : Server} (h : Inv s) (hs : Idle s) (req : Request) :
    Inv (assign kernel (s.push req) s.responses.length).2 := by
  have hfree : Released { s.push req with outgoing := [s.responses.length] }
      s.responses.length := by
    have hrange : List.range' s.responses.length
        ((s.push req).responses.length - s.responses.length) = [s.responses.length] := by
      rw [range'_push s req le_rfl, Nat.sub_self]
      rfl
    constructor
    · exact hs.message
    · exact (lt_push s req).le
    · intro j res hres
      rw [← Bool.not_eq_true, h.push_attached req j res hres, hs.message]
      simp
    · exact h.orderly
    · exact h.aborting
    · exact hrange.symm
    · left
      show s.incoming ++ [s.responses.length] = List.range' s.responses.length
        ((s.push req).responses.length - s.responses.length)
      rw [hrange, hs.incoming, List.nil_append]
    · exact hs.tags
    · exact hs.closing
  have hpush : s.push req = { s.push req with outgoing := [] } := by
    rw [← hs.outgoing]
    rfl
  rw [hpush]
  apply And.left
  apply hfree.assign kernel
  exact lt_push s req

/-- A request that comes in after the last response, on a socket that is not writable. -/
theorem Shut.push {s : Server} (h : Inv s) (hs : Shut s) (hw : s.net.sock.writable = false)
    (req : Request) :
    Inv (if (s.push req).httpMessage.isSome then
        { s.push req with outgoing := (s.push req).outgoing ++ [s.responses.length] }
      else (assign kernel (s.push req) s.responses.length).2) := by
  cases hmessage : s.httpMessage with
  | some k =>
    have hsome : (s.push req).httpMessage.isSome = true := by
      show s.httpMessage.isSome = true
      rw [hmessage]
      rfl
    rw [if_pos hsome]
    refine ⟨h.push_attached req, h.aborting, h.orderly, Or.inr (Or.inr ⟨hs.closing, ?_, ?_⟩)⟩
    · intro j hj
      exact (hs.lt j hj).trans (lt_push s req)
    · intro j res hj hres
      apply hs.stuck j res hj
      rw [← push_old s req (hs.lt j hj)]
      exact hres
  | none =>
    have hfree : (s.push req).httpMessage = none := hmessage
    rw [hfree, if_neg (by simp), assign_free hfree]
    obtain ⟨e, he, hrun, -⟩ := run_spec (x := assignSocket (σ := Peer kernel))
      (P := fun e => e = ⟨{ req.response with attached := true },
        ⟨s.net, s.responses.length, s.events⟩⟩)
      (s := { s.push req with httpMessage := some s.responses.length }) (push_new s req) rfl
    rw [hrun, he]
    refine ⟨?_, h.aborting, h.orderly, Or.inr (Or.inr ⟨hs.closing, ?_, ?_⟩)⟩
    · apply attached_set (s := { s.push req with httpMessage := some s.responses.length })
      · intro j res hj hres
        rw [h.push_attached req j res hres, hmessage]
        simp [Ne.symm hj]
      · simp
    · intro j hj
      obtain rfl : s.responses.length = j := Option.some.inj hj
      show s.responses.length < ((s.push req).responses.set _ _).length
      rw [List.length_set]
      exact lt_push s req
    · intro j res hj hres
      obtain rfl : s.responses.length = j := Option.some.inj hj
      have hset := hres.symm.trans (List.getElem?_set_self (lt_push s req))
      rw [Option.some.inj hset]
      refine ⟨hw, ?_, ?_⟩
      · intro text htext
        cases htext
      · intro hsent
        cases hsent

/-- What must not happen: the parser gives a request to the server after the last response has
finished, while the socket is still writable; a listener of a request that is aborted, while others
are still in `incoming`, ends the response that has the socket. -/
def ArrivalOk (s : Server) : Action → Prop
  | .incoming _ _ => s.closing = true → s.net.sock.writable = false
  | .method k (.call (.end _ _)) =>
    s.httpMessage = some k → s.aborting = none ∨ s.incoming = []
  | _ => True

theorem Inv.onIncoming {s : Server} (h : Inv s) (he : s.ended = false)
    (hok : s.closing = true → s.net.sock.writable = false) (req : Request)
    (checkContinue : Bool) : Inv (onIncoming kernel s req checkContinue) := by
  have hpush : Inv (if (s.push req).httpMessage.isSome then
        { s.push req with outgoing := (s.push req).outgoing ++ [s.responses.length] }
      else (assign kernel (s.push req) s.responses.length).2) := by
    rcases h.phase with hidle | ⟨k, hserving⟩ | hshut
    · have hnone : (s.push req).httpMessage = none := hidle.message
      rw [hnone, if_neg (by simp)]
      exact hidle.push h req
    · have hsome : (s.push req).httpMessage = some k := hserving.message
      rw [hsome, if_pos (by simp)]
      exact hserving.push h he req
    · exact hshut.push h (hok hshut.closing) req
  unfold Http.onIncoming
  dsimp only
  generalize (if (s.push req).httpMessage.isSome then
      { s.push req with outgoing := (s.push req).outgoing ++ [s.responses.length] }
    else (assign kernel (s.push req) s.responses.length).2) = s' at hpush ⊢
  split_ifs
  · exact hpush.keeping (fun P hP => hP.writeContinue) _
  · exact hpush

/-! ### The steps of a connection -/

theorem Inv.net {s : Server} (h : Inv s) {net : Net.State}
    (hnet : s.net.sock.writable = false → net.sock.writable = false) :
    Inv { s with net := net } := by
  refine ⟨h.attached, h.aborting, h.orderly, ?_⟩
  rcases h.phase with hidle | ⟨k, hs⟩ | hshut
  · exact Or.inl ⟨hidle.message, hidle.outgoing, hidle.incoming, hidle.tags, hidle.closing⟩
  · exact Or.inr (Or.inl ⟨k, hs.message, hs.lt, hs.outgoing, hs.incoming, hs.tags, hs.closing⟩)
  · refine Or.inr (Or.inr ⟨hshut.closing, hshut.lt, ?_⟩)
    intro k res hk hres
    obtain ⟨hwritable, hstuck⟩ := hshut.stuck k res hk hres
    exact ⟨hnet hwritable, hstuck⟩

theorem Inv.ended {s : Server} (h : Inv s) : Inv { s with ended := true } := by
  refine ⟨h.attached, fun _ => rfl, h.orderly, ?_⟩
  rcases h.phase with hidle | ⟨k, hs⟩ | hshut
  · exact Or.inl ⟨hidle.message, hidle.outgoing, hidle.incoming, hidle.tags, hidle.closing⟩
  · refine Or.inr (Or.inl ⟨k, hs.message, hs.lt, hs.outgoing, fun hnone => ?_, hs.tags, hs.closing⟩)
    rcases hs.incoming hnone with hin | ⟨hin, -⟩
    · exact Or.inl hin
    · exact Or.inr ⟨hin, rfl⟩
  · exact Or.inr (Or.inr ⟨hshut.closing, hshut.lt, hshut.stuck⟩)

/-- `abortIncoming` is called. -/
theorem Inv.abort {s : Server} (h : Inv s) (he : s.ended = true) (aborter : Aborter) :
    Inv { s with aborting := some aborter } := by
  refine ⟨h.attached, fun _ => he, h.orderly, ?_⟩
  rcases h.phase with hidle | ⟨k, hs⟩ | hshut
  · exact Or.inl ⟨hidle.message, hidle.outgoing, hidle.incoming, hidle.tags, hidle.closing⟩
  · exact Or.inr (Or.inl ⟨k, hs.message, hs.lt, hs.outgoing, nofun, hs.tags, hs.closing⟩)
  · exact Or.inr (Or.inr ⟨hshut.closing, hshut.lt, hshut.stuck⟩)

/-- A request is shifted. -/
theorem Inv.shift {s : Server} (h : Inv s) (hsome : s.aborting ≠ none) {k : ℕ} {rest : List ℕ}
    (hin : s.incoming = k :: rest) : Inv { s with incoming := rest } := by
  refine ⟨h.attached, h.aborting, h.orderly, ?_⟩
  rcases h.phase with hidle | ⟨k, hs⟩ | hshut
  · cases hin.symm.trans hidle.incoming
  · exact Or.inr (Or.inl ⟨k, hs.message, hs.lt, hs.outgoing, fun hnone => absurd hnone hsome,
      hs.tags, hs.closing⟩)
  · exact Or.inr (Or.inr ⟨hshut.closing, hshut.lt, hshut.stuck⟩)

/-- The loop is done. -/
theorem Inv.aborted {s : Server} (h : Inv s) (hsome : s.aborting ≠ none) (hin : s.incoming = []) :
    Inv { s with aborting := none } := by
  refine ⟨h.attached, fun hne => absurd rfl hne, h.orderly, ?_⟩
  rcases h.phase with hidle | ⟨k, hs⟩ | hshut
  · exact Or.inl ⟨hidle.message, hidle.outgoing, hin, hidle.tags, hidle.closing⟩
  · exact Or.inr (Or.inl ⟨k, hs.message, hs.lt, hs.outgoing,
      fun _ => Or.inr ⟨hin, h.aborting hsome⟩, hs.tags, hs.closing⟩)
  · exact Or.inr (Or.inr ⟨hshut.closing, hshut.lt, hshut.stuck⟩)

theorem Inv.endSocket {s : Server} (h : Inv s) : Inv (endSocket kernel s) := by
  unfold Http.endSocket
  split_ifs with hwritable
  · apply h.net
    intro hfalse
    rw [hwritable] at hfalse
    cases hfalse
  · exact h

theorem Inv.abortIncoming {s s' : Server} (h : Inv s) (hs : abortIncoming kernel s = some s') :
    Inv s' := by
  unfold Http.abortIncoming at hs
  split at hs
  · cases hs
  · rename_i aborter k rest hsome hin
    rw [← Option.some.inj hs]
    exact h.shift (by simp [hsome]) hin
  · rename_i hsome hin
    rw [← Option.some.inj hs]
    exact (h.aborted (by simp [hsome]) hin).endSocket
  · rename_i hsome hin
    rw [← Option.some.inj hs]
    exact h.aborted (by simp [hsome]) hin

theorem setLast_cases {s : Server} {i k : ℕ} {res : Outgoing}
    (h : (setLast s i).responses[k]? = some res) :
    ∃ old last, s.responses[k]? = some old ∧ res = { old with last := last } := by
  unfold setLast at h
  rw [List.getElem?_modify] at h
  obtain ⟨old, hold, hres⟩ := Option.map_eq_some_iff.mp h
  split_ifs at hres with hik
  · exact ⟨old, true, hold, hres.symm⟩
  · exact ⟨old, old.last, hold, hres.symm⟩

theorem Inv.setLast {s : Server} (h : Inv s) (i : ℕ) : Inv (setLast s i) := by
  have hlen : (Http.setLast s i).responses.length = s.responses.length := List.length_modify ..
  refine ⟨?_, h.aborting, h.orderly, ?_⟩
  · intro k res hres
    obtain ⟨old, last, hold, rfl⟩ := setLast_cases hres
    exact h.attached k old hold
  · rcases h.phase with hidle | ⟨k, hs⟩ | hshut
    · refine Or.inl ⟨hidle.message, hidle.outgoing, hidle.incoming, ?_, hidle.closing⟩
      rw [hlen]
      exact hidle.tags
    · refine Or.inr (Or.inl ⟨k, hs.message, ?_, ?_, ?_, hs.tags, hs.closing⟩)
      · rw [hlen]
        exact hs.lt
      · rw [hlen]
        exact hs.outgoing
      · unfold Server.Whole
        rw [hlen]
        exact hs.incoming
    · refine Or.inr (Or.inr ⟨hshut.closing, ?_, ?_⟩)
      · rw [hlen]
        exact hshut.lt
      · intro k res hk hres
        obtain ⟨old, last, hold, rfl⟩ := setLast_cases hres
        exact hshut.stuck k old hk hold

/-- A response that may be ended finds its request in `incoming`. -/
theorem Serving.whole {s : Server} (h : Inv s) {k : ℕ} (hs : Serving s k)
    (hok : s.aborting = none ∨ s.incoming = []) : s.Whole k := by
  by_cases hnone : s.aborting = none
  · exact hs.incoming hnone
  · exact Or.inr ⟨hok.resolve_left hnone, h.aborting hnone⟩

/-- `end`, with the handlers of `'finish'` it leads to. -/
theorem Inv.performEnd {s : Server} (h : Inv s) (k : ℕ) (data : Option Chunk) (encoding : EncArg)
    (hok : s.httpMessage = some k → s.aborting = none ∨ s.incoming = []) :
    Inv (perform kernel s k (.call (.end data encoding))) := by
  have hend : Keeping («end» (σ := Peer kernel) data encoding) := fun P hP => hP.end _ _
  unfold perform
  dsimp only
  cases hres : s.responses[k]? with
  | none =>
    unfold Server.run
    rw [hres]
    exact h
  | some res =>
    obtain ⟨hinv, hserving⟩ := h.run hend hres
    obtain ⟨e, -, -, hresult⟩ := run_spec (x := «end» (σ := Peer kernel) data encoding)
      (P := fun _ => True) hres trivial
    obtain ⟨net, events, responses, hvars⟩ :=
      run_variables s k («end» (σ := Peer kernel) data encoding)
    generalize s.run kernel k («end» data encoding) = r at hinv hserving hresult hvars
    obtain ⟨result, s'⟩ := r
    match result with
    | none => exact hinv
    | some (_, false) => exact hinv
    | some (ret, true) =>
      have hdone := hresult _ rfl
      obtain ⟨hattached, houtput, hsent⟩ := end_finish hdone
      have hs : Serving s' k := hserving _ e rfl hdone hattached houtput hsent
      have hvars : s' = { s with net := net, events := events, responses := responses } := hvars
      have hmessage : s.httpMessage = some k := by
        have := hs.message
        rwa [hvars] at this
      have hwhole : s'.aborting = none ∨ s'.incoming = [] := by
        rw [hvars]
        exact hok hmessage
      exact hs.onFinish hinv (hs.whole hinv hwhole)

theorem Inv.perform {s : Server} (h : Inv s) {k : ℕ} {m : Method}
    (hok : ArrivalOk s (.method k m)) : Inv (perform kernel s k m) := by
  cases m with
  | call c =>
    cases c with
    | writeContinue => exact h.keeping (fun P hP => hP.writeContinue) k
    | writeHead statusCode reasonPhrase obj => exact h.keeping (fun P hP => hP.writeHead _ _ _) k
    | write chunk encoding => exact h.keeping (fun P hP => hP.write _ _) k
    | «end» data encoding => exact h.performEnd k data encoding hok
  | setHeader name value => exact h.keeping (fun P hP => hP.setHeader _ _) k
  | removeHeader name => exact h.keeping (fun P hP => hP.removeHeader _) k
  | addTrailers headers => exact h.keeping (fun P hP => hP.addTrailers _) k

theorem Inv.onWritable {s : Server} (h : Inv s) : Inv (onWritable kernel s) := by
  have hflush := Net.flushRounds_unwritable kernel (s.net.sock.queue.length + 1) (n := s.net)
  unfold Http.onWritable Net.flush
  generalize Net.flushRounds kernel (s.net.sock.queue.length + 1) s.net = r at hflush
  obtain ⟨result, net⟩ := r
  match result with
  | .ok true =>
    apply h.net
    intro hwritable
    split_ifs
    · rfl
    · exact hflush hwritable
  | .ok false => exact h.net hflush
  | .error _ => exact h.net hflush

theorem Inv.onEnd {s : Server} (h : Inv s) (httpAllowHalfOpen parseError : Bool) :
    Inv (onEnd kernel httpAllowHalfOpen parseError s) := by
  unfold Http.onEnd
  dsimp only
  generalize hnet : (if s.net.sock.writable = true then
    { s.net with sock := { s.net.sock with readable := false } }
    else Net.destroy { s.net with sock := { s.net.sock with readable := false } }) = net
  have hended : Inv { s with ended := true, net := net } := by
    apply h.ended.net
    intro hwritable
    have hnot : s.net.sock.writable = false := hwritable
    rw [← hnet, if_neg (by simp [hnot])]
    rfl
  split_ifs
  · exact hended.net fun _ => rfl
  · exact hended.abort rfl .onend
  · split
    · exact hended.setLast _
    · exact hended.setLast _
    · exact hended.endSocket

theorem Inv.step {s s' : Server} (h : Inv s) {a : Action} {httpAllowHalfOpen : Bool}
    (hok : ArrivalOk s a) (hs : step kernel httpAllowHalfOpen s a = some s') : Inv s' := by
  unfold Http.step at hs
  cases a with
  | incoming req checkContinue =>
    dsimp only at hs
    split_ifs at hs with he
    rw [← Option.some.inj hs]
    exact h.onIncoming (Bool.not_eq_true _ ▸ he) hok req checkContinue
  | method k m =>
    dsimp only at hs
    split_ifs at hs
    rw [← Option.some.inj hs]
    exact h.perform hok
  | writable =>
    dsimp only at hs
    split_ifs at hs
    rw [← Option.some.inj hs]
    exact h.onWritable
  | «end» parseError =>
    dsimp only at hs
    split_ifs at hs
    rw [← Option.some.inj hs]
    exact h.onEnd httpAllowHalfOpen parseError
  | close =>
    dsimp only at hs
    split_ifs at hs
    rw [← Option.some.inj hs]
    exact h.ended.abort rfl .close
  | abort => exact h.abortIncoming hs
  | destroy =>
    rw [← Option.some.inj hs]
    exact h.net fun _ => rfl

end NodeJS.Http
