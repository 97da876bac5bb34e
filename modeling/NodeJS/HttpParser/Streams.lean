import NodeJS.HttpParser.Assertions

/-! A stream of segments: what comes of it depends on its bytes alone. -/
namespace NodeJS.HttpParser
open Lib.Marks (Machine Outcome Feed Client slice)

variable {U : Type} {strict : Bool} {settings : Settings U}

/-- The same as far as a caller can tell: after an error some callbacks may be missing, and where
the parser stopped early its local variables are lost. -/
def Agree : Except Fault (Result U) → Except Fault (Result U) → Prop
  | .ok r, .ok r' =>
    r.ended = r'.ended ∧ r.nparsed = r'.nparsed ∧ r.parser.toMessage = r'.parser.toMessage ∧
      (r.ended = .parsed → r.parser = r'.parser) ∧ (r.ended ≠ .error → r.user = r'.user)
  | .error e, .error e' => e = e'
  | _, _ => False

/-- The calls for segments with so many bytes, and the run of the machine over them. The parser
that the last call began with is of interest only to its private fields. -/
def Matches (total : ℕ) (x : Except Fault (Result U)) : Outcome Parser Stop U → Prop
  | .done q u => x = .ok ⟨q, total, u, .parsed⟩
  | .stopped o n u => ∃ q, x = Result.of q [] (.stopped o n u)

theorem Result.of_stopped (q : Parser) (data : Bytes) (o : Stop) (n : ℕ) (u : U) :
    Result.of q data (.stopped o n u) = Result.of q [] (.stopped o n u) := by
  cases o <;> rfl

theorem Matches.shift {total : ℕ} {x : Except Fault (Result U)} {r : Outcome Parser Stop U}
    (h : Matches total x r) (n : ℕ) : Matches (n + total) (x.map (Result.shift n)) (r.shift n) := by
  cases r with
  | done q u =>
    obtain rfl : x = _ := h
    rfl
  | stopped o k u =>
    obtain ⟨q, rfl⟩ := h
    refine ⟨q, ?_⟩
    cases o <;> rfl

theorem ended_ne_parsed {q : Parser} {o : Stop} {n : ℕ} {u : U} {r : Result U}
    (h : Result.of q [] (.stopped o n u) = .ok r) : r.ended ≠ .parsed := by
  cases o with
  | undefined => cases h
  | assertion => cases h
  | _ =>
    obtain rfl := Except.ok.inj h
    exact Ended.noConfusion

variable (strict settings) in
/-- Call by call the machine runs on from where it was. -/
theorem executeAll_matches {segments : List Bytes} (hne : ∀ data ∈ segments, data ≠ []) {q : Parser}
    (h : q.Sound) (u : U) :
    Matches segments.flatten.length (executeAll strict settings segments q u)
      ((machine strict).windows settings segments q u) := by
  induction segments generalizing q u with
  | nil => rfl
  | cons data segments ih =>
    have hdata : execute strict settings q data u =
        Result.of q data ((machine strict).window settings data q u) :=
      if_neg (hne data List.mem_cons_self)
    have hwindow := window_sound strict settings h data u
    rw [executeAll, Machine.windows, hdata, List.flatten_cons, List.length_append]
    generalize (machine strict).window settings data q u = r at hwindow ⊢
    cases r with
    | done q' u' =>
      have hsound : q'.Sound := hwindow
      have hrest := ih (fun data hd => hne data (List.mem_cons_of_mem _ hd)) hsound u'
      rw [Outcome.andThen_done]
      show Matches _ ((executeAll strict settings segments q'.save u').map _) _
      rw [hsound.save]
      exact hrest.shift data.length
    | stopped o n u' =>
      rw [Outcome.andThen_stopped, Result.of_stopped]
      refine ⟨q, ?_⟩
      cases hr : Result.of q [] (.stopped o n u') with
      | error e => rfl
      | ok r =>
        dsimp only
        rw [if_neg (ended_ne_parsed hr)]

theorem Matches.agree {total : ℕ} {x x' : Except Fault (Result U)} {r r' : Outcome Parser Stop U}
    (h : Matches total x r) (h' : Matches total x' r') (hr : r.Agree Stop.fatal r') :
    Agree x x' := by
  cases r with
  | done q u =>
    cases r' with
    | stopped => exact hr.elim
    | done q' u' =>
      obtain ⟨rfl, rfl⟩ := hr
      obtain rfl : x = _ := h
      obtain rfl : x' = _ := h'
      exact ⟨rfl, rfl, rfl, fun _ => rfl, fun _ => rfl⟩
  | stopped o n u =>
    cases r' with
    | done => exact hr.elim
    | stopped o' n' u' =>
      obtain ⟨rfl, rfl, hu⟩ := hr
      obtain ⟨q, rfl⟩ := h
      obtain ⟨q', rfl⟩ := h'
      cases o with
      | error m => exact ⟨rfl, rfl, rfl, Ended.noConfusion, fun h => absurd rfl h⟩
      | returned m => exact ⟨rfl, rfl, rfl, Ended.noConfusion, fun _ => hu.resolve_left id⟩
      | refused m => exact ⟨rfl, rfl, rfl, Ended.noConfusion, fun _ => hu.resolve_left id⟩
      | undefined => rfl
      | assertion => rfl

theorem init_marks (q : Parser) (t : HttpParserType) : (q.init t).state.marks = ∅ := by
  cases t <;> rfl

theorem absorbs_of_marks {f : Feed UInt8 Mark Notification U} {q : Parser}
    (h : q.state.marks = ∅) (u : U) : Lib.Marks.Absorbs (machine strict) f q u := by
  intro k hk
  rw [show (machine strict).active q = q.state.marks from rfl, h] at hk
  cases Finset.notMem_empty k hk

/-- What is read byte by byte is read in any segments. -/
theorem executeAll_reads {f : Feed UInt8 Mark Notification U} (hc : settings.Follows f)
    (hf : f.Lawful overlap) {q q' : Parser} (h : q.Sound) (hmarks : q.state.marks = ∅)
    {segments : List Bytes} (hne : ∀ data ∈ segments, data ≠ []) {u u' : U}
    (hread : (machine strict).Reads f segments.flatten q u q' u') :
    executeAll strict settings segments q u = .ok ⟨q', segments.flatten.length, u', .parsed⟩ := by
  have hagree := Machine.windows_agree hc hf (machine_orderly strict) segments
    (absorbs_of_marks hmarks u)
  have hmatches := executeAll_matches strict settings hne h u
  rw [show (machine strict).bytes f segments.flatten q u = .done q' u' from hread] at hagree
  cases hw : (machine strict).windows settings segments q u with
  | done q₁ u₁ =>
    rw [hw] at hagree hmatches
    obtain ⟨rfl, rfl⟩ := hagree
    exact hmatches
  | stopped o n u₁ =>
    rw [hw] at hagree
    exact hagree.elim

/-- Two ways to cut a stream into segments come to the same, for callbacks that put pieces together
again. -/
theorem segmentation_irrelevant {f : Feed UInt8 Mark Notification U} (hc : settings.Follows f)
    (hf : f.Lawful overlap) {q : Parser} (h : q.index < 2 ^ 8) (t : HttpParserType)
    {segments segments' : List Bytes} (hne : ∀ data ∈ segments, data ≠ [])
    (hne' : ∀ data ∈ segments', data ≠ []) (hsame : segments.flatten = segments'.flatten) (u : U) :
    Agree (executeAll strict settings segments (q.init t) u)
      (executeAll strict settings segments' (q.init t) u) := by
  have hagree := Machine.windows_congr hc hf (machine_orderly strict) hsame
    (absorbs_of_marks (init_marks q t) u)
  have hmatches' := executeAll_matches strict settings hne'
    (init_sound h t) u
  rw [← hsame] at hmatches'
  exact (executeAll_matches strict settings hne (init_sound h t) u).agree hmatches' hagree

/-- What each kind of callback was handed, in one piece. -/
structure Collected where
  data : Mark → Bytes
  body : Bytes
  asked : List Notification

def collector : Feed UInt8 Mark Notification Collected where
  data k b u := { u with data := Function.update u.data k (u.data k ++ b) }
  body b u := { u with body := u.body ++ b }
  ask n u := (0, { u with asked := u.asked ++ [n] })

theorem collector_lawful : collector.Lawful overlap where
  append := by simp [collector]
  body_append := by simp [collector]
  comm := by
    intro k k' h x y u
    have hne : k ≠ k' := by
      rintro rfl
      revert h
      cases k <;> decide
    simp [collector, hne, hne.symm, Function.update_comm hne]

theorem segmentation_irrelevant_split :
    Agree
      (executeAll true collector.client [bytes "GET /a?b HT", bytes "TP/1.1\r\nA: b\r\n\r\n"]
        (blank.init .request) ⟨fun _ => [], [], []⟩)
      (executeAll true collector.client [bytes "GET /", bytes "a?b HTTP/1.1\r\nA: b\r", bytes "\n\r\n"]
        (blank.init .request) ⟨fun _ => [], [], []⟩) :=
  segmentation_irrelevant collector.client_follows collector_lawful (by decide) .request
    (by decide) (by decide) (by decide) _

end NodeJS.HttpParser
