import NodeJS.HttpParser.Heads

/-! What `http_parser_execute` makes of a request line: the method, and the parts of the URL. -/
namespace NodeJS.HttpParser
open Lib.Marks (Act Machine Feed fed)

variable {U : Type} (strict : Bool) {f : Feed UInt8 Mark Notification U}

/-! ### Methods -/

/-- What a further letter does to `method` and `index`. -/
def methodStep (s : Method × ℕ) (ch : UInt8) : Option (Method × ℕ) :=
  match reqMethod { blank with method := s.1, state := .reqMethod, index := s.2 } ch with
  | .next q => some (q.method, q.index)
  | _ => none

theorem reqMethod_eq {q : Parser} {s : Method × ℕ} {ch : UInt8} (hch : ch ≠ 0x20)
    (h : methodStep (q.method, q.index) ch = some s) :
    reqMethod q ch = .next { q with method := s.1, index := s.2 } := by
  obtain ⟨m, state, headerState, index, nread⟩ := q
  unfold methodStep at h
  unfold reqMethod at h ⊢
  dsimp only at h ⊢
  by_cases h0 : ch = 0
  · rw [if_pos h0] at h
    cases h
  rw [if_neg h0] at h ⊢
  by_cases hlength : (methodStrings m.method).length < index
  · rw [if_pos hlength] at h
    cases h
  rw [if_neg hlength, if_neg (fun h => hch h.1)] at h ⊢
  by_cases hmatch : (methodStrings m.method)[index]? = some ch
  · rw [if_pos hmatch] at h ⊢
    obtain rfl := Option.some.inj h
    rfl
  · rw [if_neg hmatch] at h ⊢
    cases hother : otherMethod m.method index ch with
    | none =>
      rw [hother] at h
      cases h
    | some m' =>
      rw [hother] at h
      obtain rfl := Option.some.inj h
      rfl

def Parser.inMethod (q : Parser) (s : Method × ℕ) : Parser :=
  { q with method := s.1, state := .reqMethod, index := s.2 }

theorem reads_methodRest {name : Bytes} (hname : 0x20 ∉ name) {q : Parser} {s s' : Method × ℕ}
    (h : name.foldlM methodStep s = some s')
    (hnread : q.nread + name.length ≤ HTTP_MAX_HEADER_SIZE) (u : U) :
    Reads strict f name (q.inMethod s) u ((q.count name.length).inMethod s') u := by
  induction name generalizing q s with
  | nil =>
    obtain rfl : s = s' := Option.some.inj h
    exact .nil
  | cons c name ih =>
    rw [List.length_cons] at hnread
    rw [List.mem_cons, not_or] at hname
    rw [List.foldlM_cons] at h
    obtain ⟨s₁, hone, hmore⟩ := Option.bind_eq_some_iff.mp h
    have hread : Reads strict f [c] (q.inMethod s) u ((q.count 1).inMethod s₁) u := by
      refine reads_plain rfl (by show q.nread < _; omega) rfl ?_
      rw [show (q.inMethod s).state = .reqMethod from rfl, switch,
        reqMethod_eq (q := (q.inMethod s).count 1) (Ne.symm hname.1) hone]
      rfl
    rw [List.length_cons, Nat.add_comm, ← Parser.count_count]
    exact hread.append (ih hname.2 hmore (by show q.nread + 1 + name.length ≤ _; omega))

/-- The names of the methods are told apart. -/
theorem methodStrings_read (m : Method) : ∃ c rest m₀, methodStrings m = c :: rest ∧
    methodOf c = some m₀ ∧ rest.foldlM methodStep (m₀, 1) = some (m, (methodStrings m).length) ∧
    IS_ALPHA (LOWER c) = true ∧ c ≠ CR ∧ c ≠ LF ∧ 0x20 ∉ rest := by
  cases m <;> exact ⟨_, _, _, rfl, rfl, by decide, by decide, by decide,
    by decide, by decide⟩

theorem reqMethod_space {q : Parser} (h : q.index = (methodStrings q.method).length) :
    reqMethod q 0x20 = .next { q with state := .reqSpacesBeforeUrl, index := q.index + 1 } := by
  unfold reqMethod
  dsimp only
  rw [if_neg (by decide), if_neg (by omega), if_pos ⟨rfl, h.symm⟩]

/-- A method is read, and the message begins. -/
theorem reads_method (hw : Willing f) (method : Method) {q : Parser} (hs : q.state = .startReq)
    (hnread : q.nread + ((methodStrings method).length + 1) ≤ HTTP_MAX_HEADER_SIZE) (u : U) :
    ∃ index, Reads strict f (methodStrings method ++ [0x20]) q u
      { q.moved ((methodStrings method).length + 1) { q.toMessage.fresh with method }
          .reqSpacesBeforeUrl with index }
      (hearBegin f u q.toMessage.fresh) := by
  obtain ⟨c, rest, m₀, hname, hm₀, hrest, halpha, hcr, hlf, hspace⟩ := methodStrings_read method
  have hlength : (methodStrings method).length = 1 + rest.length := by
    rw [hname, List.length_cons, Nat.add_comm]
  refine ⟨(methodStrings method).length + 1, ?_⟩
  have hbegin : Reads strict f [c] q u
      (({ q.count 1 with toMessage := q.toMessage.fresh } : Parser).inMethod (m₀, 1))
      (hearBegin f u q.toMessage.fresh) := by
    refine reads_plain (by rw [hs]; rfl) (by omega) rfl ?_
    rw [hs, switch, if_neg (by simp [hcr, hlf]), feed_messageBegin hw, halpha, if_neg (by decide),
      startReqMethodAssign, hm₀]
    rfl
  have hmore := reads_methodRest strict (f := f) hspace (q :=
    { q.count 1 with toMessage := q.toMessage.fresh }) hrest
    (by show q.nread + 1 + rest.length ≤ _; omega) (hearBegin f u q.toMessage.fresh)
  have hend : Reads strict f [0x20]
      ((({ q.count 1 with toMessage := q.toMessage.fresh } : Parser).count rest.length).inMethod
        (method, (methodStrings method).length)) (hearBegin f u q.toMessage.fresh)
      { q.moved ((methodStrings method).length + 1) { q.toMessage.fresh with method }
          .reqSpacesBeforeUrl with index := (methodStrings method).length + 1 }
      (hearBegin f u q.toMessage.fresh) := by
    refine reads_plain rfl (by show q.nread + 1 + rest.length < _; omega) rfl ?_
    rw [show ∀ q s, (Parser.inMethod q s).state = .reqMethod from fun _ _ => rfl, switch,
      reqMethod_space rfl, Act.feed]
    simp only [Parser.inMethod, Parser.count, Parser.moved, hlength, Nat.add_assoc,
      Nat.add_comm rest.length 1]
  have hread := (hbegin.append hmore).append hend
  rw [List.singleton_append, ← hname] at hread
  exact hread

/-! ### URLs -/

/-- The parts of a URL are read along with the URL. -/
def weave (f : Feed UInt8 Mark Notification U) (k : Mark) (x : Bytes) (u : U) : U :=
  f.data .url x (f.data k x u)

theorem weave_url (hf : f.Lawful overlap) {k : Mark} (hk : overlap k .url) (x y : Bytes) (u : U) :
    weave f k y (f.data .url x u) = f.data .url (x ++ y) (f.data k y u) := by
  rw [weave, hf.comm k .url hk, hf.append]

theorem weave_append (hf : f.Lawful overlap) {k : Mark} (hk : overlap k .url) (x y : Bytes)
    (u : U) : weave f k y (weave f k x u) = weave f k (x ++ y) u := by
  rw [weave.eq_def f k x, weave_url hf hk, hf.append]
  rfl

theorem foldl_count (q : Parser) (l : Bytes) :
    l.foldl (fun q _ => q.count 1) q = q.count l.length := by
  induction l generalizing q with
  | nil => rfl
  | cons c l ih => rw [List.foldl_cons, ih, Parser.count_count, List.length_cons, Nat.add_comm]

/-- A byte that leads from one state to another. -/
theorem reads_move {s₀ s₁ : State} {piece : Bytes → U → U} (hheader : s₀.parsingHeader = true)
    (hfed : ∀ a u, fed f s₁.marks a (machine strict).order u = piece [a] u) {c : UInt8} {u u' : U}
    (h : ∀ q : Parser, q.state = s₀ →
      (switch strict q c 1 s₀).feed f c u = (.inl { q with state := s₁ }, u'))
    {q : Parser} {n : ℕ} {m : Message} (hnread : q.nread + n < HTTP_MAX_HEADER_SIZE) :
    Reads strict f [c] (q.moved n m s₀) u (q.moved (n + 1) m s₁) (piece [c] u') := by
  rw [← hfed]
  exact reads_byte (q := q.moved n m s₀) hheader hnread (h ((q.moved n m s₀).count 1) rfl)

/-- The bytes of a part, in the state that reads it. -/
theorem reads_part (hf : f.Lawful overlap) {k : Mark} (hk : overlap k .url) {s : State}
    (hheader : s.parsingHeader = true)
    (hfed : ∀ a u, fed f s.marks a (machine strict).order u = weave f k [a] u) (ok : UInt8 → Prop)
    (hstep : ∀ q : Parser, q.state = s → ∀ c, ok c → ∀ u,
      (switch strict q c 1 s).feed f c u = (.inl q, u))
    {l : Bytes} (hl : ∀ c ∈ l, ok c) {q : Parser} {n : ℕ} {m : Message}
    (hnread : q.nread + (n + l.length) ≤ HTTP_MAX_HEADER_SIZE) (x : Bytes) (u : U) :
    Reads strict f l (q.moved n m s) (weave f k x u) (q.moved (n + l.length) m s)
      (weave f k (x ++ l) u) := by
  rw [show q.moved (n + l.length) m s = (q.moved n m s).count l.length by
    simp only [Parser.moved, Parser.count, Nat.add_assoc], ← foldl_count]
  refine reads_piece (weave_append hf hk) (fun q => q.state = s) ok (fun q _ => q) ?_ ?_ rfl hl
    (by show q.nread + n + l.length ≤ _; omega) x u
  · rintro q rfl
    exact ⟨hheader, hfed⟩
  · rintro q c rfl hc
    exact ⟨rfl, rfl, hstep (q.count 1) rfl c hc⟩

theorem fed_reqPath (a : UInt8) (u : U) :
    fed f State.reqPath.marks a (machine strict).order u = weave f .path [a] u := by
  simp [fed, machine, State.marks, weave]

theorem fed_reqQueryString (a : UInt8) (u : U) :
    fed f State.reqQueryString.marks a (machine strict).order u = weave f .queryString [a] u := by
  simp [fed, machine, State.marks, weave]

theorem fed_reqFragment (a : UInt8) (u : U) :
    fed f State.reqFragment.marks a (machine strict).order u = weave f .fragment [a] u := by
  simp [fed, machine, State.marks, weave]

theorem fed_url {s : State} (h : s.marks = {.url}) (a : UInt8) (u : U) :
    fed f s.marks a (machine strict).order u = f.data .url [a] u := by
  rw [h]
  simp [fed, machine]

theorem IS_URL_CHAR_question : IS_URL_CHAR strict 0x3f = false := by
  cases strict <;> rfl

theorem IS_URL_CHAR_hash : IS_URL_CHAR strict 0x23 = false := by
  cases strict <;> rfl

theorem IS_URL_CHAR_space : IS_URL_CHAR strict 0x20 = false := by
  cases strict <;> rfl

/-- The bytes of a URL between its parts. -/
theorem reads_skip (hf : f.Lawful overlap) {s : State} (hheader : s.parsingHeader = true)
    (hmarks : s.marks = {.url}) (ok : UInt8 → Prop)
    (hstep : ∀ q : Parser, q.state = s → ∀ c, ok c → ∀ u,
      (switch strict q c 1 s).feed f c u = (.inl q, u))
    {l : Bytes} (hl : ∀ c ∈ l, ok c) {q : Parser} {n : ℕ} {m : Message}
    (hnread : q.nread + (n + l.length) ≤ HTTP_MAX_HEADER_SIZE) (x : Bytes) (u : U) :
    Reads strict f l (q.moved n m s) (f.data .url x u) (q.moved (n + l.length) m s)
      (f.data .url (x ++ l) u) := by
  rw [show q.moved (n + l.length) m s = (q.moved n m s).count l.length by
    simp only [Parser.moved, Parser.count, Nat.add_assoc], ← foldl_count]
  refine reads_piece (hf.append .url) (fun q => q.state = s) ok (fun q _ => q) ?_ ?_ rfl hl
    (by show q.nread + n + l.length ≤ _; omega) x u
  · rintro q rfl
    exact ⟨hheader, fed_url strict hmarks⟩
  · rintro q c rfl hc
    exact ⟨rfl, rfl, hstep (q.count 1) rfl c hc⟩

/-- The target of a request: a path, what follows the first `?`, and what follows the `#`. -/
structure Target where
  path : Bytes
  query : Option Bytes
  fragment : Option Bytes

def Target.url (t : Target) : Bytes :=
  t.path ++ (t.query.elim [] (0x3f :: ·) ++ t.fragment.elim [] (0x23 :: ·))

structure Target.Valid (strict : Bool) (t : Target) : Prop where
  path : ∃ c rest, t.path = c :: rest ∧ (c = 0x2f ∨ c = 0x2a) ∧
    ∀ d ∈ rest, IS_URL_CHAR strict d = true
  query : ∀ q ∈ t.query, ∀ c ∈ q, IS_URL_CHAR strict c = true ∨ c = 0x3f
  fragment : ∀ q ∈ t.fragment, ∀ c ∈ q, IS_URL_CHAR strict c = true ∨ c = 0x3f ∨ c = 0x23

/-- The query string without further question marks in front of it. -/
def Target.queryString (t : Target) : Bytes := (t.query.getD []).dropWhile (· == 0x3f)

def Target.fragmentString (t : Target) : Bytes := (t.fragment.getD []).dropWhile (· == 0x23)

/-- A part that may be empty, and is not handed on then. -/
def hearPart (f : Feed UInt8 Mark Notification U) (k : Mark) (part : Bytes) (u : U) : U :=
  if part = [] then u else f.data k part u

/-- What a target means for the client: each callback gets its part. -/
def hearTarget (f : Feed UInt8 Mark Notification U) (u : U) (t : Target) : U :=
  f.data .url t.url (hearPart f .fragment t.fragmentString
    (hearPart f .queryString t.queryString (f.data .path t.path u)))

theorem reads_path (hf : f.Lawful overlap) {path : Bytes}
    (hpath : ∃ c rest, path = c :: rest ∧ (c = 0x2f ∨ c = 0x2a) ∧
      ∀ d ∈ rest, IS_URL_CHAR strict d = true) {q : Parser} {n : ℕ} {m : Message}
    (hnread : q.nread + (n + path.length) ≤ HTTP_MAX_HEADER_SIZE) (u : U) :
    Reads strict f path (q.moved n m .reqSpacesBeforeUrl) u
      (q.moved (n + path.length) m .reqPath) (f.data .url path (f.data .path path u)) := by
  obtain ⟨c, rest, rfl, hc, hrest⟩ := hpath
  rw [List.length_cons] at hnread
  have hone : Reads strict f [c] (q.moved n m .reqSpacesBeforeUrl) u
      (q.moved (n + 1) m .reqPath) (weave f .path [c] u) := by
    have hspace : c ≠ 0x20 := by
      rintro rfl
      exact absurd hc (by decide)
    have hbyte : Reads strict f [c] (q.moved n m .reqSpacesBeforeUrl) u
        (q.moved (n + 1) m .reqPath)
        (weave f .path [c] (f.data .path [] (f.data .url [] u))) := by
      refine reads_move strict rfl (fed_reqPath strict) (fun q _ => ?_) (by omega)
      rw [switch, reqSpacesBeforeUrl, if_neg hspace, if_pos hc]
      rfl
    rw [hf.comm .path .url (by decide)] at hbyte
    have hfirst : weave f .path [c] (f.data .url [] (f.data .path [] u)) = weave f .path [c] u :=
      weave_append hf (by decide) [] [c] u
    rw [hfirst] at hbyte
    exact hbyte
  have hmore := reads_part strict hf (k := .path) (s := .reqPath) (by decide) rfl
    (fed_reqPath strict) (fun d => IS_URL_CHAR strict d = true) (fun q hs d hd u => by
      rw [switch, reqPath, if_pos hd]
      rfl) hrest (q := q) (n := n + 1) (m := m) (by omega) [c] u
  have hread := hone.append hmore
  rw [Nat.add_assoc, Nat.add_comm 1] at hread
  exact hread

/-- A part that is optional: more of the byte that announced it is skipped. -/
theorem reads_opened (hf : f.Lawful overlap) {k : Mark} (hk : overlap k .url) {s₀ s₁ : State}
    (a : UInt8) (ok : UInt8 → Prop) (hheader₀ : s₀.parsingHeader = true)
    (hheader₁ : s₁.parsingHeader = true) (hmarks : s₀.marks = {.url})
    (hfed : ∀ a u, fed f s₁.marks a (machine strict).order u = weave f k [a] u)
    (hskip : ∀ q : Parser, q.state = s₀ → ∀ u, (switch strict q a 1 s₀).feed f a u = (.inl q, u))
    (henter : ∀ q c, ok c → c ≠ a → switch strict q c 1 s₀ = .mark k (goto q s₁))
    (hstep : ∀ q : Parser, q.state = s₁ → ∀ c, ok c → ∀ u,
      (switch strict q c 1 s₁).feed f c u = (.inl q, u))
    {part : Bytes} (hpart : ∀ c ∈ part, ok c) {q : Parser} {n : ℕ} {m : Message}
    (hnread : q.nread + (n + part.length) ≤ HTTP_MAX_HEADER_SIZE) (x : Bytes) (u : U) :
    ∃ s, (s = s₀ ∨ s = s₁) ∧ Reads strict f part (q.moved n m s₀) (f.data .url x u)
      (q.moved (n + part.length) m s)
      (f.data .url (x ++ part) (hearPart f k (part.dropWhile (· == a)) u)) := by
  have hsplit := List.takeWhile_append_dropWhile (p := (· == a)) (l := part)
  generalize hskipped : part.takeWhile (· == a) = skipped at hsplit
  generalize hrest : part.dropWhile (· == a) = rest at hsplit ⊢
  have hskipped' : ∀ c ∈ skipped, c = a := by
    intro c hc
    rw [← hskipped] at hc
    simpa using List.mem_takeWhile_imp hc
  have hlength : part.length = skipped.length + rest.length := by
    rw [← hsplit, List.length_append]
  have hone := reads_skip strict hf (f := f) hheader₀ hmarks (· = a)
    (fun q hs c hc u => by rw [hc]; exact hskip q hs u) hskipped' (q := q) (n := n) (m := m)
    (by omega) x u
  cases rest with
  | nil =>
    rw [List.append_nil] at hsplit
    rw [hsplit] at hone
    exact ⟨s₀, .inl rfl, hone⟩
  | cons c rest =>
    have hc : c ≠ a := by
      have hhead := List.head?_dropWhile_not (· == a) part
      rw [hrest] at hhead
      simpa using hhead
    have hcok : ok c := hpart c (by rw [← hsplit]; simp)
    rw [hlength, List.length_cons] at hnread
    have hfirst : Reads strict f [c] (q.moved (n + skipped.length) m s₀)
        (f.data .url (x ++ skipped) u) (q.moved (n + skipped.length + 1) m s₁)
        (weave f k [c] (f.data .url (x ++ skipped) u)) := by
      have hmark : weave f k [c] (f.data k [] (f.data .url (x ++ skipped) u)) =
          weave f k [c] (f.data .url (x ++ skipped) u) := by
        rw [weave, hf.append]
        rfl
      rw [← hmark]
      refine reads_move strict hheader₀ hfed (fun q _ => ?_) (by omega)
      rw [henter q c hcok hc]
      rfl
    have hmore := reads_part strict hf hk hheader₁ hfed ok hstep (l := rest) (q := q)
      (n := n + skipped.length + 1) (m := m)
      (fun d hd => hpart d (by rw [← hsplit]; simp [hd])) (by omega) [c]
      (f.data .url (x ++ skipped) u)
    have hread := hone.append (hfirst.append hmore)
    refine ⟨s₁, .inr rfl, ?_⟩
    rw [List.singleton_append, hsplit, weave_url hf hk, List.append_assoc, hsplit] at hread
    rw [hearPart, if_neg (List.cons_ne_nil c rest), hlength, List.length_cons,
      show n + (skipped.length + (rest.length + 1)) = n + skipped.length + 1 + rest.length by omega]
    exact hread

theorem endUrl_other {ks : List Mark} {q : Parser} {ch : UInt8} (hch : ch = 0x3f ∨ ch = 0x23)
    (other : Step) : endUrl ks q ch other = other := by
  unfold endUrl
  rcases hch with rfl | rfl
  · rw [if_neg (by decide), if_neg (by decide), if_neg (by decide)]
  · rw [if_neg (by decide), if_neg (by decide), if_neg (by decide)]

theorem feed_question (q : Parser) (u : U) :
    (switch strict q 0x3f 1 .reqPath).feed f 0x3f u =
      (.inl { q with state := .reqQueryStringStart }, u) := by
  rw [switch, reqPath, IS_URL_CHAR_question, if_neg (by decide), endUrl_other (.inl rfl),
    if_pos rfl, feed_callback]
  rfl

/-- What follows a question mark. -/
theorem reads_query (hf : f.Lawful overlap) {query : Bytes}
    (hquery : ∀ c ∈ query, IS_URL_CHAR strict c = true ∨ c = 0x3f) {q : Parser} {n : ℕ}
    {m : Message} (hnread : q.nread + (n + query.length) ≤ HTTP_MAX_HEADER_SIZE) (x : Bytes)
    (u : U) :
    ∃ s, (s = .reqQueryStringStart ∨ s = .reqQueryString) ∧
      Reads strict f query (q.moved n m .reqQueryStringStart) (f.data .url x u)
        (q.moved (n + query.length) m s)
        (f.data .url (x ++ query)
          (hearPart f .queryString (query.dropWhile (· == 0x3f)) u)) := by
  refine reads_opened strict hf (by decide) 0x3f _ rfl rfl rfl (fed_reqQueryString strict)
    (fun q _ u => ?_) (fun q c hc hne => ?_) (fun q _ c hc u => ?_) hquery hnread x u
  · rw [switch, reqQueryStringStart, IS_URL_CHAR_question, if_neg (by decide),
      endUrl_other (.inl rfl), if_pos rfl]
    rfl
  · rw [switch, reqQueryStringStart, if_pos (hc.resolve_right hne)]
  · rw [switch, reqQueryString]
    rcases hc with hc | rfl
    · rw [if_pos hc]
      rfl
    · rw [IS_URL_CHAR_question, if_neg (by decide), endUrl_other (.inl rfl), if_pos rfl]
      rfl

/-- What follows a hash. -/
theorem reads_fragment (hf : f.Lawful overlap) {fragment : Bytes}
    (hfragment : ∀ c ∈ fragment, IS_URL_CHAR strict c = true ∨ c = 0x3f ∨ c = 0x23) {q : Parser}
    {n : ℕ} {m : Message} (hnread : q.nread + (n + fragment.length) ≤ HTTP_MAX_HEADER_SIZE)
    (x : Bytes) (u : U) :
    ∃ s, (s = .reqFragmentStart ∨ s = .reqFragment) ∧
      Reads strict f fragment (q.moved n m .reqFragmentStart) (f.data .url x u)
        (q.moved (n + fragment.length) m s)
        (f.data .url (x ++ fragment)
          (hearPart f .fragment (fragment.dropWhile (· == 0x23)) u)) := by
  refine reads_opened strict hf (by decide) 0x23 _ rfl rfl rfl (fed_reqFragment strict)
    (fun q _ u => ?_) (fun q c hc hne => ?_) (fun q _ c hc u => ?_) hfragment hnread x u
  · rw [switch, reqFragmentStart, IS_URL_CHAR_hash, if_neg (by decide),
      endUrl_other (.inr rfl), if_neg (by decide), if_pos rfl]
    rfl
  · rw [switch, reqFragmentStart]
    rcases hc with hc | rfl | rfl
    · rw [if_pos hc]
    · rw [IS_URL_CHAR_question, if_neg (by decide), endUrl_other (.inl rfl), if_pos rfl]
    · exact absurd rfl hne
  · rw [switch, reqFragment]
    rcases hc with hc | hc
    · rw [if_pos hc]
      rfl
    · have hchar : IS_URL_CHAR strict c = false := by
        rcases hc with rfl | rfl
        · exact IS_URL_CHAR_question strict
        · exact IS_URL_CHAR_hash strict
      rw [hchar, if_neg (by decide), endUrl_other hc, if_pos hc]
      rfl

/-- Where a hash begins a fragment. -/
theorem feed_hash {s : State}
    (hs : s = .reqPath ∨ s = .reqQueryStringStart ∨ s = .reqQueryString) (q : Parser) (u : U) :
    (switch strict q 0x23 1 s).feed f 0x23 u =
      (.inl { q with state := .reqFragmentStart }, u) := by
  rcases hs with rfl | rfl | rfl
  · rw [switch, reqPath, IS_URL_CHAR_hash, if_neg (by decide), endUrl_other (.inr rfl),
      if_neg (by decide), if_pos rfl, feed_callback]
    rfl
  · rw [switch, reqQueryStringStart, IS_URL_CHAR_hash, if_neg (by decide),
      endUrl_other (.inr rfl), if_neg (by decide), if_pos rfl]
    rfl
  · rw [switch, reqQueryString, IS_URL_CHAR_hash, if_neg (by decide), endUrl_other (.inr rfl),
      if_neg (by decide), if_pos rfl, feed_callback]
    rfl

/-- A byte that opens a part. -/
theorem reads_opening (hf : f.Lawful overlap) {s₀ s₁ : State} (hheader : s₀.parsingHeader = true)
    (hmarks : s₁.marks = {.url}) {a : UInt8}
    (h : ∀ (q : Parser) u, (switch strict q a 1 s₀).feed f a u = (.inl { q with state := s₁ }, u))
    {q : Parser} {n : ℕ} {m : Message} (hnread : q.nread + n < HTTP_MAX_HEADER_SIZE) (x : Bytes)
    (u : U) :
    Reads strict f [a] (q.moved n m s₀) (f.data .url x u) (q.moved (n + 1) m s₁)
      (f.data .url (x ++ [a]) u) := by
  rw [← hf.append]
  exact reads_move strict hheader (fed_url strict hmarks) (fun q _ => h q _) hnread

/-- The parts before a fragment. -/
theorem reads_beforeHash (hf : f.Lawful overlap) {t : Target} (ht : t.Valid strict) {q : Parser}
    {n : ℕ} {m : Message}
    (hnread : q.nread + (n + (t.path ++ t.query.elim [] (0x3f :: ·)).length) ≤
      HTTP_MAX_HEADER_SIZE) (u : U) :
    ∃ s, (s = .reqPath ∨ s = .reqQueryStringStart ∨ s = .reqQueryString) ∧
      Reads strict f (t.path ++ t.query.elim [] (0x3f :: ·)) (q.moved n m .reqSpacesBeforeUrl) u
        (q.moved (n + (t.path ++ t.query.elim [] (0x3f :: ·)).length) m s)
        (f.data .url (t.path ++ t.query.elim [] (0x3f :: ·))
          (hearPart f .queryString t.queryString (f.data .path t.path u))) := by
  rw [List.length_append] at hnread
  have hpath := reads_path strict hf ht.path (q := q) (n := n) (m := m) (by omega) u
  obtain ⟨path, query, fragment⟩ := t
  cases query with
  | none =>
    refine ⟨.reqPath, .inl rfl, ?_⟩
    rw [show path ++ (none : Option Bytes).elim [] (0x3f :: ·) = path from List.append_nil path]
    exact hpath
  | some query =>
    dsimp only [Option.elim_some, List.length_cons] at hnread
    have hopen := reads_opening strict hf (f := f) rfl rfl (feed_question strict) (q := q)
      (n := n + path.length) (m := m) (by omega) path (f.data .path path u)
    obtain ⟨s, hs, hquery⟩ := reads_query strict hf (ht.query query rfl) (q := q)
      (n := n + path.length + 1) (m := m) (by omega) (path ++ [0x3f]) (f.data .path path u)
    refine ⟨s, .inr hs, ?_⟩
    have hread := hpath.append (hopen.append hquery)
    rw [List.append_assoc, List.singleton_append] at hread
    rw [show n + (path ++ (some query).elim [] (0x3f :: ·)).length =
      n + path.length + 1 + query.length by
        rw [Option.elim_some, List.length_append, List.length_cons]; omega]
    exact hread

def State.endsTarget : State → Bool
  | .reqPath | .reqQueryStringStart | .reqQueryString | .reqFragmentStart | .reqFragment => true
  | _ => false

/-- The target of a request is read, and its parts are handed on. -/
theorem reads_target (hf : f.Lawful overlap) {t : Target} (ht : t.Valid strict) {q : Parser}
    {n : ℕ} {m : Message} (hnread : q.nread + (n + t.url.length) ≤ HTTP_MAX_HEADER_SIZE) (u : U) :
    ∃ s, s.endsTarget = true ∧
      Reads strict f t.url (q.moved n m .reqSpacesBeforeUrl) u (q.moved (n + t.url.length) m s)
        (hearTarget f u t) := by
  have hurl : t.url = (t.path ++ t.query.elim [] (0x3f :: ·)) ++ t.fragment.elim [] (0x23 :: ·) := by
    rw [Target.url, List.append_assoc]
  have hlength := congrArg List.length hurl
  rw [List.length_append] at hlength
  obtain ⟨s, hs, hbefore⟩ := reads_beforeHash strict hf ht (q := q) (n := n) (m := m) (by omega) u
  generalize t.path ++ t.query.elim [] (0x3f :: ·) = before at hurl hlength hbefore
  unfold hearTarget
  cases hfragment : t.fragment with
  | none =>
    rw [hfragment, Option.elim_none, List.append_nil] at hurl
    refine ⟨s, ?_, ?_⟩
    · rcases hs with rfl | rfl | rfl <;> rfl
    · rw [Target.fragmentString, hfragment, hurl]
      exact hbefore
  | some fragment =>
    rw [hfragment, Option.elim_some] at hurl hlength
    rw [List.length_cons] at hlength
    have hheader : s.parsingHeader = true := by
      rcases hs with rfl | rfl | rfl <;> rfl
    generalize hearPart f .queryString t.queryString (f.data .path t.path u) = u' at hbefore ⊢
    have hopen := reads_opening strict hf (f := f) hheader rfl (feed_hash strict hs) (q := q)
      (n := n + before.length) (m := m) (by omega) before u'
    obtain ⟨s', hs', hrest⟩ := reads_fragment strict hf (ht.fragment fragment hfragment) (q := q)
      (n := n + before.length + 1) (m := m) (by omega) (before ++ [0x23]) u'
    refine ⟨s', ?_, ?_⟩
    · rcases hs' with rfl | rfl <;> rfl
    · have hread := hbefore.append (hopen.append hrest)
      rw [List.append_assoc, List.singleton_append, ← hurl] at hread
      rw [Target.fragmentString, hfragment, hlength,
        show n + (before.length + (fragment.length + 1)) =
          n + before.length + 1 + fragment.length by omega]
      exact hread

/-! ### Request lines -/

theorem reads_targetEnd {s : State} (hs : s.endsTarget = true) {q : Parser} {n : ℕ} {m : Message}
    (hnread : q.nread + n < HTTP_MAX_HEADER_SIZE) (u : U) :
    Reads strict f [0x20] (q.moved n m s) u (q.moved (n + 1) m .reqHttpStart) u := by
  have hspace : ∀ ks (q : Parser) other, (endUrl ks q 0x20 other).feed f 0x20 u =
      (.inl { q with state := .reqHttpStart }, u) := fun ks q other => by
    rw [endUrl, if_pos rfl, feed_callback]
    rfl
  have hswitch : ∀ q : Parser, (switch strict q 0x20 1 s).feed f 0x20 u =
      (.inl { q with state := .reqHttpStart }, u) := by
    intro q
    cases s with
    | reqPath => rw [switch, reqPath, IS_URL_CHAR_space, if_neg (by decide), hspace]
    | reqQueryStringStart =>
      rw [switch, reqQueryStringStart, IS_URL_CHAR_space, if_neg (by decide), hspace]
    | reqQueryString => rw [switch, reqQueryString, IS_URL_CHAR_space, if_neg (by decide), hspace]
    | reqFragmentStart =>
      rw [switch, reqFragmentStart, IS_URL_CHAR_space, if_neg (by decide), hspace]
    | reqFragment => rw [switch, reqFragment, IS_URL_CHAR_space, if_neg (by decide), hspace]
    | _ => cases hs
  have hheader : s.parsingHeader = true := by
    cases s <;> first | rfl | cases hs
  exact reads_plain (q := q.moved n m s) hheader hnread rfl (hswitch _)

theorem path_reqHttp :
    Path strict .reqHttpStart [0x48, 0x54, 0x54, 0x50, 0x2f] .reqFirstHttpMajor :=
  .cons ⟨rfl, rfl, fun _ _ => rfl⟩ <|
  .cons ⟨rfl, rfl, fun q _ => strict_check_self strict _ q _⟩ <|
  .cons ⟨rfl, rfl, fun q _ => strict_check_self strict _ q _⟩ <|
  .cons ⟨rfl, rfl, fun q _ => strict_check_self strict _ q _⟩ <|
  .cons ⟨rfl, rfl, fun q _ => strict_check_self strict _ q _⟩ <| .nil _

theorem path_requestEnd : Path strict .reqHttpMinor [CR, LF] .headerFieldStart :=
  .cons ⟨rfl, rfl, fun _ _ => rfl⟩ <| .cons ⟨rfl, rfl, fun _ _ => rfl⟩ <| .nil _

structure RequestLine where
  method : Method
  target : Target
  version : Version

def RequestLine.bytes (l : RequestLine) : Bytes :=
  methodStrings l.method ++ [0x20] ++ (l.target.url ++ (HttpParser.bytes " HTTP/" ++
    (l.version.bytes ++ [CR, LF])))

def Message.requestLine (m : Message) (l : RequestLine) : Message :=
  { m.fresh.version l.version with method := l.method }

/-- A request line is read: the message begins, and the parts of its target are handed on. -/
theorem reads_requestLine (hw : Willing f) (hf : f.Lawful overlap) {l : RequestLine}
    (hl : l.target.Valid strict) {q : Parser} (hs : q.state = .startReq)
    (hnread : q.nread + l.bytes.length ≤ HTTP_MAX_HEADER_SIZE) (u : U) :
    ∃ q', Reads strict f l.bytes q u q'
        (hearTarget f (hearBegin f u q.toMessage.fresh) l.target) ∧
      Between q' (q.toMessage.requestLine l) (q.nread + l.bytes.length) := by
  have hlength : l.bytes.length =
      (methodStrings l.method).length + 1 + (l.target.url.length + 11) := by
    simp only [RequestLine.bytes, Version.bytes, List.length_append, List.length_cons,
      List.length_nil, show (bytes " HTTP/").length = 6 by decide]
  rw [hlength] at hnread
  obtain ⟨index, hmethod⟩ := reads_method strict (f := f) hw l.method hs (by omega) u
  generalize hearBegin f u q.toMessage.fresh = u₁ at hmethod ⊢
  generalize hk : (methodStrings l.method).length + 1 = k at hlength hnread hmethod
  obtain ⟨s, hs', htarget⟩ := reads_target strict hf hl (q := { q with index }) (n := k)
    (m := { q.toMessage.fresh with method := l.method }) (by show q.nread + _ ≤ _; omega) u₁
  generalize hearTarget f u₁ l.target = u₂ at htarget ⊢
  have hspace := reads_targetEnd strict (f := f) hs' (q := { q with index })
    (n := k + l.target.url.length) (m := { q.toMessage.fresh with method := l.method })
    (by show q.nread + _ < _; omega) u₂
  have hhttp := (path_reqHttp strict).moves strict (f := f) (q := { q with index })
    (n := k + l.target.url.length + 1) (m := { q.toMessage.fresh with method := l.method })
    (by show q.nread + (_ + 5) ≤ _; omega) u₂
  have hversion : Reads strict f l.version.bytes
      (Parser.moved { q with index } (k + l.target.url.length + 6)
        { q.toMessage.fresh with method := l.method } .reqFirstHttpMajor) u₂
      (Parser.moved { q with index } (k + l.target.url.length + 9)
        (q.toMessage.requestLine l) .reqHttpMinor) u₂ :=
    reads_version strict l.version .reqFirstHttpMajor .reqHttpMajor .reqFirstHttpMinor
      .reqHttpMinor (fun _ _ => rfl) (fun _ _ => rfl) (fun _ _ => rfl) (by decide) (by decide) rfl
      (by show q.nread + _ + 3 ≤ _; omega) u₂
  have hend := (path_requestEnd strict).moves strict (f := f) (q := { q with index })
    (n := k + l.target.url.length + 9) (m := q.toMessage.requestLine l)
    (by show q.nread + (_ + 2) ≤ _; omega) u₂
  have hread := hmethod.append (htarget.append (hspace.append (hhttp.append (hversion.append hend))))
  have hbytes : bytes " HTTP/" = [0x20] ++ [0x48, 0x54, 0x54, 0x50, 0x2f] := by decide
  refine ⟨Parser.moved { q with index } (k + l.target.url.length + 11)
    (q.toMessage.requestLine l) .headerFieldStart, ?_, ⟨rfl, rfl, ?_⟩⟩
  · rw [RequestLine.bytes, hbytes, List.append_assoc [0x20]]
    exact hread
  · show q.nread + (k + l.target.url.length + 11) = _
    rw [hlength, Nat.add_assoc k]

end NodeJS.HttpParser
