import NodeJS.Url.Quoted
import Mathlib.Data.List.TakeWhile

/-! The path of a URL, and the hosts that have none after them. -/
namespace NodeJS.Url

/-! ### The path of a text -/

section
variable {Q : QueryString}

theorem idxOf_take (c : UInt16) (s : JSString) :
    s.take ((s.idxOf? c).getD s.length) = s.takeWhile (· != c) := take_findIdx (· == c) s

theorem cutHash_snd (rest : JSString) : (cutHash rest).2 = rest.takeWhile (· != hashMark) := by
  rw [← idxOf_take, cutHash]
  cases rest.idxOf? hashMark with
  | none => exact (List.take_length).symm
  | some hash => rfl

theorem pathname_tailStage (parseQueryString : Bool) (rest : JSString) :
    (tailStage Q parseQueryString rest).pathname =
      rest.takeWhile fun c => c != questionMark && c != hashMark := by
  have hcut : (tailStage Q parseQueryString rest).pathname =
      (cutHash rest).2.takeWhile (· != questionMark) := by
    rw [← idxOf_take, tailStage]
    dsimp only
    cases (cutHash rest).2.idxOf? questionMark with
    | none =>
      dsimp only
      rw [Option.getD_none, List.take_length]
      split_ifs <;> rfl
    | some qm => rfl
  rw [hcut, cutHash_snd, List.takeWhile_takeWhile]
  simp only [Bool.decide_and, Bool.decide_eq_true]

/-- A character that does not end the path. -/
def isPathChar (c : UInt16) : Bool :=
  !delims.contains c && (c != questionMark && c != hashMark)

def pathText (rest : JSString) : JSString :=
  (replaceAll apostrophe (js "%27") rest).takeWhile isPathChar

theorem pathname_chop (parseQueryString : Bool) (rest : JSString) :
    (tailStage Q parseQueryString (chop (escapeRest rest))).pathname = pathText rest := by
  rw [pathname_tailStage, chop_eq, escapeRest_eq, List.takeWhile_takeWhile, pathText]
  congr 1
  funext c
  rw [Bool.decide_and, Bool.decide_eq_true, Bool.decide_eq_true, Bool.and_comm]
  rfl

end

theorem pathText_cons (c : UInt16) (rest : JSString) :
    pathText (c :: rest) = if c = apostrophe then js "%27" ++ pathText rest
      else if isPathChar c then c :: pathText rest else [] := by
  unfold pathText replaceAll
  rw [List.flatMap_cons]
  split_ifs with hc hpath
  · exact List.takeWhile_append_of_pos (by decide)
  · rw [List.singleton_append, List.takeWhile_cons_of_pos hpath]
  · rw [List.singleton_append, List.takeWhile_cons_of_neg hpath]

/-- The end of the text, or a character where the path ends. -/
def Ends (rest : JSString) : Prop :=
  rest = [] ∨ ∃ c more, rest = c :: more ∧
    (delims.contains c = true ∨ c = questionMark ∨ c = hashMark)

theorem pathText_nil_iff (rest : JSString) : pathText rest = [] ↔ Ends rest := by
  unfold Ends
  cases rest with
  | nil => exact iff_of_true rfl (.inl rfl)
  | cons c rest =>
    rw [pathText_cons]
    by_cases hc : c = apostrophe
    · subst hc
      rw [if_pos rfl]
      refine iff_of_false (by simp [js]) ?_
      rintro (h | ⟨d, more, h, hd⟩)
      · cases h
      · obtain ⟨rfl, -⟩ := List.cons_eq_cons.mp h
        exact absurd hd (by decide)
    · rw [if_neg hc]
      have hpath : isPathChar c = false ↔
          (delims.contains c = true ∨ c = questionMark ∨ c = hashMark) := by
        unfold isPathChar
        rw [Bool.and_eq_false_iff, Bool.and_eq_false_iff, Bool.not_eq_false', bne_eq_false_iff_eq,
          bne_eq_false_iff_eq]
      cases hchar : isPathChar c with
      | true =>
        rw [hchar] at hpath
        refine iff_of_false (by simp) ?_
        rintro (h | ⟨d, more, h, hd⟩)
        · cases h
        · obtain ⟨rfl, -⟩ := List.cons_eq_cons.mp h
          exact Bool.noConfusion (hpath.mpr hd)
      | false => exact iff_of_true (if_neg Bool.false_ne_true) (.inr ⟨c, rest, rfl, hpath.mp hchar⟩)

theorem pathText_append {x : JSString} (hx : ∀ c ∈ x, isPathChar c = true ∧ c ≠ apostrophe)
    (rest : JSString) : pathText (x ++ rest) = x ++ pathText rest := by
  induction x with
  | nil => rfl
  | cons c x ih =>
    obtain ⟨⟨hpath, hc⟩, hx⟩ := List.forall_mem_cons.mp hx
    rw [List.cons_append, pathText_cons, if_neg hc, if_pos hpath, ih hx, List.cons_append]

/-! ### A host with nothing after it -/

def ValidPart (part : JSString) : Prop := part = [] ∨ hostnamePartPattern part = true

/-- A name of which something is kept and nothing goes into the path: of a last part that is not
valid nothing may be kept. -/
def KeepsName (name : JSString) : Prop :=
  name.length ≤ hostnameMaxLen ∧
    (name ≠ [] ∧ (∀ part ∈ name.splitOn dot, ValidPart part) ∨
      ∃ valid part, name.splitOn dot = valid ++ [part] ∧ (∀ part ∈ valid, ValidPart part) ∧
        part ≠ [] ∧ hostnamePartPattern part = false ∧ hostnamePartStart part = none ∧
        [dot].intercalate valid ≠ [])

/-- A user, a host and a port, and nothing that belongs to a path. -/
def Bare (text : JSString) : Prop :=
  KeepsName ((parseHost (cutHost (pluckAuth text).2).1).2.getD []) ∧
    Ends (cutHost (pluckAuth text).2).2

theorem not_ends_slash (rest : JSString) : ¬ Ends (slash :: rest) := by
  rintro (h | ⟨c, more, h, hc⟩)
  · cases h
  · obtain ⟨rfl, -⟩ := List.cons_eq_cons.mp h
    exact absurd hc (by decide)

theorem firstInvalid_valid {parts : List JSString} (h : ∀ part ∈ parts, ValidPart part)
    (validParts : List JSString) : firstInvalid validParts parts = none := by
  induction parts generalizing validParts with
  | nil => rfl
  | cons part parts ih =>
    obtain ⟨hpart, hparts⟩ := List.forall_mem_cons.mp h
    rw [firstInvalid]
    exact (if_pos hpart).trans (ih hparts _)

theorem firstInvalid_append {valid : List JSString} (h : ∀ part ∈ valid, ValidPart part)
    {part : JSString} (hne : part ≠ []) (hpart : hostnamePartPattern part = false)
    (validParts notHost : List JSString) :
    firstInvalid validParts (valid ++ part :: notHost) =
      some (validParts ++ valid, part, notHost) := by
  induction valid generalizing validParts with
  | nil =>
    rw [List.nil_append, firstInvalid, if_neg (by simp [hne, hpart]), List.append_nil]
  | cons first valid ih =>
    obtain ⟨hfirst, hvalid⟩ := List.forall_mem_cons.mp h
    rw [List.cons_append, firstInvalid]
    refine (if_pos hfirst).trans ?_
    rw [ih hvalid, List.append_assoc]
    rfl

theorem validate_iff (name rest : JSString) :
    (validate name rest).1 ≠ [] ∧ Ends (validate name rest).2 ↔ KeepsName name ∧ Ends rest := by
  unfold validate
  by_cases hlong : name.length > hostnameMaxLen
  · rw [if_pos hlong]
    exact iff_of_false (fun h => h.1 rfl) fun h => absurd h.1.1 (Nat.not_le_of_gt hlong)
  rw [if_neg hlong]
  have hlength := Nat.le_of_not_gt hlong
  rcases firstInvalid_spec [] (name.splitOn dot) with ⟨hnone, hall⟩ | ⟨valid, part, notHost, hsome,
    hparts, hvalid, hne, hpart⟩
  · rw [hnone]
    constructor
    · rintro ⟨hname, hends⟩
      exact ⟨⟨hlength, .inl ⟨hname, hall⟩⟩, hends⟩
    · rintro ⟨⟨-, ⟨hname, -⟩ | ⟨valid, part, hparts, hvalid, hne, hpart, -⟩⟩, hends⟩
      · exact ⟨hname, hends⟩
      · rw [hparts, firstInvalid_append hvalid hne hpart] at hnone
        cases hnone
  · rw [hsome, List.nil_append]
    have hkeeps : KeepsName name ↔
        notHost = [] ∧ hostnamePartStart part = none ∧ [dot].intercalate valid ≠ [] := by
      constructor
      · rintro ⟨-, ⟨-, hall⟩ | ⟨valid', part', hparts', hvalid', hne', hpart', hstart, hname⟩⟩
        · rw [firstInvalid_valid hall] at hsome
          cases hsome
        · rw [hparts', firstInvalid_append hvalid' hne' hpart'] at hsome
          obtain ⟨rfl, rfl, rfl⟩ : valid' = valid ∧ part' = part ∧ [] = notHost := by
            simpa using hsome
          exact ⟨rfl, hstart, hname⟩
      · rintro ⟨rfl, hstart, hname⟩
        exact ⟨hlength, .inr ⟨valid, part, hparts, hvalid, hne, hpart, hstart, hname⟩⟩
    rw [hkeeps]
    dsimp only
    cases hstart : hostnamePartStart part with
    | some found =>
      obtain ⟨bit, more⟩ := found
      refine iff_of_false (fun h => ?_) (by simp)
      have hends := h.2
      rw [if_pos (List.cons_ne_nil _ _)] at hends
      exact not_ends_slash _ hends
    | none =>
      dsimp only
      cases notHost with
      | nil => simp
      | cons more notHost =>
        refine iff_of_false (fun h => ?_) (by simp)
        have hends := h.2
        rw [if_pos (List.cons_ne_nil _ _)] at hends
        exact not_ends_slash _ hends

/-- When a slash is set for the path. -/
theorem bare_iff (text : JSString) :
    (hostStage text).1.hostname ≠ [] ∧ pathText (hostStage text).2 = [] ↔ Bare text := by
  unfold hostStage Bare
  dsimp only
  rw [← validate_iff, pathText_nil_iff, toLowerCase, ne_eq, List.map_eq_nil_iff]

end NodeJS.Url
