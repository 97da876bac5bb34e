import NodeJS.Buffer.Text
import NodeJS.Lib.Replace

/-! How `util.inspect` prints a string, and a key of an object. -/
namespace NodeJS.Util
open Lib Lib.Regex

inductive Style
  | special
  | number
  | boolean
  | undefined
  | null
  | string
  | name
  deriving DecidableEq

/-- `styles` of the colour of a style. -/
def Style.codes : Style → Option (ℕ × ℕ)
  | special => some (36, 39)
  | number => some (34, 39)
  | boolean => some (33, 39)
  | undefined => some (90, 39)
  | null => some (1, 22)
  | string => some (32, 39)
  | name => none

def escapeCode (n : ℕ) : JSString := js "\x1b[" ++ js (toString n) ++ js "m"

def stylize (colors : Bool) (str : JSString) (styleType : Style) : JSString :=
  match colors, styleType.codes with
  | true, some (on, off) => escapeCode on ++ str ++ escapeCode off
  | _, _ => str

abbrev quote : UInt16 := 0x22
abbrev apostrophe : UInt16 := 0x27
abbrev backslash : UInt16 := 0x5C

/-- The part of `JsonQuotes` for control characters. -/
def controls : List JSString :=
  ["\\u0000", "\\u0001", "\\u0002", "\\u0003", "\\u0004", "\\u0005", "\\u0006", "\\u0007",
    "\\b", "\\t", "\\n", "\\u000b", "\\f", "\\r", "\\u000e", "\\u000f",
    "\\u0010", "\\u0011", "\\u0012", "\\u0013", "\\u0014", "\\u0015", "\\u0016", "\\u0017",
    "\\u0018", "\\u0019", "\\u001a", "\\u001b", "\\u001c", "\\u001d", "\\u001e", "\\u001f"].map js

def quoteUnit (c : UInt16) : JSString :=
  if c = quote then [backslash, quote]
  else if c = backslash then [backslash, backslash]
  else controls[c.toNat]?.getD [c]

/-- `JSON.stringify` of a string. -/
def stringify (s : JSString) : JSString := quote :: s.flatMap quoteUnit ++ [quote]

/-- `/^"|"$/g` -/
def endsRe : Regex UInt16 := ends (· == quote)

/-- `/(^"|"$)/g` -/
def endsGroupRe : Regex UInt16 := .group 1 (ends (· == quote))

/-- `/'/g` -/
def apostropheRe : Regex UInt16 := .cls (· == apostrophe)

/-- `/\\"/g` -/
def escapedQuoteRe : Regex UInt16 := .seq (.cls (· == backslash)) (.cls (· == quote))

/-- `[a-zA-Z_]` -/
def isIdentifierStart (c : UInt16) : Bool :=
  0x61 ≤ c ∧ c ≤ 0x7A ∨ 0x41 ≤ c ∧ c ≤ 0x5A ∨ c = 0x5F

/-- `[a-zA-Z_0-9]` -/
def isIdentifierPart (c : UInt16) : Bool := isIdentifierStart c ∨ 0x30 ≤ c ∧ c ≤ 0x39

/-- `/^"([a-zA-Z_][a-zA-Z_0-9]*)"$/` -/
def identifierRe : Regex UInt16 :=
  .seq .start (.seq (.cls (· == quote)) (.seq
    (.group 1 (.seq (.cls isIdentifierStart) (.star true (.cls isIdentifierPart))))
    (.seq (.cls (· == quote)) .finish)))

section
variable (colors : Bool)

def formatString (s : JSString) : JSString :=
  let simple := endsRe.replace [] (stringify s)
  let simple := apostropheRe.replace (js "\\'") simple
  let simple := escapedQuoteRe.replace (js "\"") simple
  stylize colors (js "'" ++ simple ++ js "'") .string

/-- The `name` of a key that is visible, unless it is an index of an array. -/
def formatName (key : JSString) : JSString :=
  let name := stringify key
  if (identifierRe.exec 0 name).isSome then
    stylize colors ((name.drop 1).take (name.length - 2)) .name
  else
    let name := apostropheRe.replace (js "\\'") name
    let name := escapedQuoteRe.replace (js "\"") name
    stylize colors (endsGroupRe.replace (js "'") name) .string

end

/-- `[a-zA-Z_][a-zA-Z_0-9]*` -/
def IsIdentifier : JSString → Prop
  | [] => False
  | c :: rest => isIdentifierStart c = true ∧ ∀ d ∈ rest, isIdentifierPart d = true

/-! ### The text of a character -/

/-- A character between quotes, with the apostrophes escaped as well. -/
def token (c : UInt16) : JSString :=
  if c = apostrophe then [backslash, apostrophe] else quoteUnit c

def printed (c : UInt16) : JSString := if c = quote then [quote] else token c

theorem controls_spec : ∀ t ∈ controls, ∃ d rest, t = backslash :: d :: rest ∧ d ≠ quote ∧
    ∀ e ∈ d :: rest, e ≠ backslash ∧ e ≠ apostrophe := by
  have hall : (controls.all fun t => t.head? == some backslash && t.tail.head?.isSome &&
      t.tail.head? != some quote &&
        t.tail.all fun e => e != backslash && e != apostrophe) = true := by decide +kernel
  intro t ht
  have h := List.all_eq_true.mp hall t ht
  simp only [Bool.and_eq_true, beq_iff_eq, bne_iff_ne, List.all_eq_true] at h
  obtain ⟨⟨⟨hhead, hsome⟩, hquote⟩, hall⟩ := h
  cases t with
  | nil => cases hhead
  | cons b t =>
    cases t with
    | nil => cases hsome
    | cons d rest =>
      refine ⟨d, rest, ?_, fun hd => hquote (congrArg some hd), hall⟩
      rw [Option.some.inj hhead]

/-- A quote, a backslash, a control character, or any other character, which stands for itself. -/
theorem quoteUnit_cases (c : UInt16) :
    (c = quote ∧ quoteUnit c = [backslash, quote]) ∨
      (c = backslash ∧ quoteUnit c = [backslash, backslash]) ∨
      (c ≠ quote ∧ c ≠ backslash ∧ c ≠ apostrophe ∧ quoteUnit c ∈ controls) ∨
      c ≠ quote ∧ c ≠ backslash ∧ quoteUnit c = [c] := by
  unfold quoteUnit
  split_ifs with hquote hbackslash
  · exact .inl ⟨hquote, rfl⟩
  · exact .inr (.inl ⟨hbackslash, rfl⟩)
  · refine .inr (.inr ?_)
    cases hcontrol : controls[c.toNat]? with
    | none => exact .inr ⟨hquote, hbackslash, rfl⟩
    | some t =>
      refine .inl ⟨hquote, hbackslash, ?_, List.mem_of_getElem? hcontrol⟩
      rintro rfl
      cases hcontrol

theorem replace_apostrophe (s : JSString) :
    apostropheRe.replace (js "\\'") (s.flatMap quoteUnit) = s.flatMap token := by
  rw [apostropheRe, replace_cls, List.flatMap_assoc]
  congr 1
  funext c
  have hkeep : ∀ x : JSString, apostrophe ∉ x →
      (x.flatMap fun c => if (c == apostrophe) = true then js "\\'" else [c]) = x := by
    intro x hx
    induction x with
    | nil => rfl
    | cons d x ih =>
      rw [List.mem_cons, not_or] at hx
      rw [List.flatMap_cons, ih hx.2, if_neg (by simpa using Ne.symm hx.1), List.singleton_append]
  unfold token
  split_ifs with hc
  · subst hc
    decide +kernel
  · refine hkeep _ ?_
    rcases quoteUnit_cases c with ⟨-, h⟩ | ⟨-, h⟩ | ⟨-, -, -, h⟩ | ⟨-, -, h⟩
    · rw [h]
      decide
    · rw [h]
      decide
    · obtain ⟨d, rest, ht, -, hall⟩ := controls_spec _ h
      rw [ht, List.mem_cons, not_or]
      exact ⟨by decide, fun hmem => (hall _ hmem).2 rfl⟩
    · rw [h, List.mem_singleton]
      exact Ne.symm hc

/-! ### Identifiers -/

theorem quoteUnit_identifier {c : UInt16} (h : isIdentifierPart c = true) : quoteUnit c = [c] := by
  have hdigit : 0x30 ≤ c := by
    unfold isIdentifierPart isIdentifierStart at h
    simp only [decide_eq_true_eq, UInt16.le_iff_toNat_le] at h ⊢
    rcases h with (h | h | rfl) | h
    · exact Nat.le_trans (by decide) h.1
    · exact Nat.le_trans (by decide) h.1
    · decide
    · exact h.1
  have hcontrols : controls.length ≤ c.toNat :=
    Nat.le_trans (by decide) (UInt16.le_iff_toNat_le.mp hdigit)
  unfold quoteUnit
  split_ifs with hquote hbackslash
  · rw [hquote] at h
    cases h
  · rw [hbackslash] at h
    cases h
  · rw [List.getElem?_eq_none hcontrols]
    rfl

theorem flatMap_identifier {s : JSString} (h : ∀ c ∈ s, isIdentifierPart c = true) :
    s.flatMap quoteUnit = s := by
  induction s with
  | nil => rfl
  | cons c s ih =>
    rw [List.forall_mem_cons] at h
    rw [List.flatMap_cons, quoteUnit_identifier h.1, ih h.2]
    rfl

theorem quoteUnit_plain {s : JSString} (h : ∀ c ∈ s.flatMap quoteUnit, c ≠ backslash) :
    s.flatMap quoteUnit = s := by
  induction s with
  | nil => rfl
  | cons c s ih =>
    rw [List.flatMap_cons, List.forall_mem_append] at h
    have hunit : quoteUnit c = [c] := by
      rcases quoteUnit_cases c with ⟨-, hc⟩ | ⟨-, hc⟩ | ⟨-, -, -, hc⟩ | ⟨-, -, hc⟩
      · exact absurd rfl (h.1 backslash (by simp [hc]))
      · exact absurd rfl (h.1 backslash (by simp [hc]))
      · obtain ⟨d, rest, ht, -⟩ := controls_spec _ hc
        exact absurd rfl (h.1 backslash (by simp [ht]))
      · exact hc
    rw [List.flatMap_cons, hunit, ih h.2]
    rfl

theorem isIdentifierPart_of_start {c : UInt16} (h : isIdentifierStart c = true) :
    isIdentifierPart c = true := decide_eq_true (.inl h)

theorem IsIdentifier.parts {key : JSString} (h : IsIdentifier key) :
    ∀ c ∈ key, isIdentifierPart c = true := by
  cases key with
  | nil => cases h
  | cons c rest => exact List.forall_mem_cons.mpr ⟨isIdentifierPart_of_start h.1, h.2⟩

theorem isSome_run_closing {s : At UInt16} (hs : s.rest = [quote]) :
    ((Regex.seq (.cls (· == quote)) .finish).run some s).isSome := by
  rw [run_seq, run_cls_cons hs, if_pos (by rfl), Regex.run, At.rest_skip, hs]
  rfl

/-- Which keys the expression matches. -/
theorem identifierRe_iff (key : JSString) :
    (identifierRe.exec 0 (stringify key)).isSome ↔ IsIdentifier key := by
  rw [identifierRe, exec_start, Option.isSome_map]
  constructor
  · intro h
    obtain ⟨u, hu⟩ := Option.isSome_iff_exists.mp h
    obtain ⟨t, ⟨x, ⟨a, -, hx⟩, y, ⟨z, ⟨c, hc, rfl⟩, hstar⟩, w, ⟨b, -, rfl⟩, rfl, hnil⟩, -⟩ :=
      takes_of_run hu
    obtain ⟨rest, hrest, rfl⟩ := takes_star_cls hstar
    have hparts : IsIdentifier (c :: rest) := ⟨hc, hrest⟩
    have htext : stringify key = a :: (c :: rest) ++ [b] := by
      rw [hnil] at hx
      exact hx
    have hbody : key.flatMap quoteUnit = c :: rest :=
      (List.append_inj' (List.cons.inj htext).2 rfl).1
    have hplain : ∀ d ∈ key.flatMap quoteUnit, d ≠ backslash := by
      rw [hbody]
      rintro d hd rfl
      cases hparts.parts _ hd
    rwa [← hbody, quoteUnit_plain hplain] at hparts
  · intro h
    rw [stringify, flatMap_identifier h.parts, run_seq, run_cls_cons rfl, if_pos (by rfl), run_seq,
      run_group, run_seq]
    cases key with
    | nil => cases h
    | cons c rest =>
      rw [run_cls_cons rfl, if_pos h.1]
      refine isSome_run_star (n := rest.length) ⟨?_, ?_⟩ (isSome_run_closing ?_)
      · change rest.length ≤ (rest ++ [quote]).length
        rw [List.length_append]
        exact Nat.le_add_right _ _
      · change ∀ d ∈ (rest ++ [quote]).take rest.length, _
        rw [List.take_left]
        exact h.2
      · exact List.drop_left

/-! ### Escaped quotes -/

/-- `replace` with `escapedQuoteRe`. -/
def unescapeQuotes (x : JSString) : JSString :=
  replacePairs (· == backslash) (· == quote) [quote] x

theorem replace_escapedQuote (x : JSString) :
    escapedQuoteRe.replace (js "\"") x = unescapeQuotes x := replace_seq _ _ _ x

/-- Without a backslash nothing is replaced. -/
theorem unescapeQuotes_append {x : JSString} (hx : ∀ e ∈ x, e ≠ backslash) (rest : JSString) :
    unescapeQuotes (x ++ rest) = x ++ unescapeQuotes rest := by
  induction x with
  | nil => rfl
  | cons c x ih =>
    rw [List.forall_mem_cons] at hx
    have hc : (c == backslash) = false := beq_eq_false_iff_ne.mpr hx.1
    rw [List.cons_append, List.cons_append, ← ih hx.2]
    exact replacePairs_left hc

theorem head_cons_ne {c : UInt16} (hc : c ≠ quote) (rest : JSString) :
    (c :: rest).head? ≠ some quote := fun h => hc (Option.some.inj h)

/-- A backslash that stays, because no quote follows. -/
theorem unescapeQuotes_backslash {rest : JSString} (h : rest.head? ≠ some quote) :
    unescapeQuotes (backslash :: rest) = backslash :: unescapeQuotes rest := by
  refine replacePairs_right fun d hd => beq_eq_false_iff_ne.mpr ?_
  rintro rfl
  exact h hd

/-- One character. After a backslash no quote may follow. -/
theorem unescapeQuotes_token {c : UInt16} {rest : JSString}
    (h : c = backslash → rest.head? ≠ some quote) :
    unescapeQuotes (token c ++ rest) = printed c ++ unescapeQuotes rest := by
  unfold printed token
  rcases quoteUnit_cases c with ⟨rfl, hunit⟩ | ⟨rfl, hunit⟩ | ⟨hquote, -, hapostrophe, hunit⟩ |
    ⟨hquote, hbackslash, hunit⟩
  · rw [if_neg (by decide), if_pos rfl, hunit]
    exact replacePairs_pair rfl rfl
  · rw [if_neg (by decide), if_neg (by decide), hunit]
    exact (unescapeQuotes_backslash (head_cons_ne (by decide) rest)).trans
      (congrArg (backslash :: ·) (unescapeQuotes_backslash (h rfl)))
  · obtain ⟨d, x, ht, hd, hall⟩ := controls_spec _ hunit
    have hnext : (d :: x ++ rest).head? ≠ some quote := head_cons_ne hd (x ++ rest)
    rw [if_neg hapostrophe, if_neg hquote, ht, List.cons_append,
      unescapeQuotes_backslash hnext, unescapeQuotes_append fun e he => (hall e he).1]
    rfl
  · rw [if_neg hquote]
    split_ifs with hapostrophe
    · have hrest : ∀ e ∈ [apostrophe], e ≠ backslash := by decide
      exact (unescapeQuotes_backslash (head_cons_ne (by decide) rest)).trans
        (congrArg (backslash :: ·) (unescapeQuotes_append hrest rest))
    · rw [hunit]
      exact unescapeQuotes_append (by simpa using hbackslash) rest

/-- A quote that is printed has a backslash in front of it. -/
theorem head_token (c : UInt16) (rest : JSString) : (token c ++ rest).head? ≠ some quote := by
  have hbackslash : ∀ x : JSString, (backslash :: x ++ rest).head? ≠ some quote :=
    fun x => head_cons_ne (by decide) (x ++ rest)
  unfold token
  split_ifs
  · exact hbackslash [apostrophe]
  · rcases quoteUnit_cases c with ⟨-, hunit⟩ | ⟨-, hunit⟩ | ⟨-, -, -, hunit⟩ | ⟨hquote, -, hunit⟩
    · rw [hunit]
      exact hbackslash [quote]
    · rw [hunit]
      exact hbackslash [backslash]
    · obtain ⟨d, x, ht, -, -⟩ := controls_spec _ hunit
      rw [ht]
      exact hbackslash (d :: x)
    · rw [hunit]
      exact head_cons_ne hquote rest

/-- A text that does not end in a backslash, or that no quote follows. -/
theorem unescapeQuotes_flatMap {s rest : JSString}
    (h : s.getLast? = some backslash → rest.head? ≠ some quote) :
    unescapeQuotes (s.flatMap token ++ rest) = s.flatMap printed ++ unescapeQuotes rest := by
  induction s with
  | nil => rfl
  | cons c s ih =>
    have hlast : s.getLast? = some backslash → rest.head? ≠ some quote := by
      intro hs
      refine h ?_
      rw [List.getLast?_cons, hs]
      rfl
    have hnext : c = backslash → (s.flatMap token ++ rest).head? ≠ some quote := by
      rintro rfl
      cases s with
      | nil => exact h rfl
      | cons d s =>
        rw [List.flatMap_cons, List.append_assoc]
        exact head_token d _
    rw [List.flatMap_cons, List.append_assoc, unescapeQuotes_token hnext, ih hlast,
      List.flatMap_cons, List.append_assoc]

/-! ### What is printed -/

section
variable (colors : Bool)

theorem formatString_eq (s : JSString) :
    formatString colors s =
      stylize colors (apostrophe :: s.flatMap printed ++ [apostrophe]) .string := by
  have hends : endsRe.replace [] (stringify s) = s.flatMap quoteUnit := by
    rw [endsRe, stringify, (isEnds_ends _).replace rfl rfl, List.nil_append, List.append_nil]
  have hquotes : unescapeQuotes (s.flatMap token ++ []) = s.flatMap printed ++ [] :=
    unescapeQuotes_flatMap fun _ => by simp
  rw [List.append_nil, List.append_nil] at hquotes
  unfold formatString
  dsimp only
  rw [hends, replace_apostrophe, replace_escapedQuote, hquotes]
  rfl

/-- The quotes of a key are taken off when the escaped quotes have been replaced. -/
theorem replace_key (key : JSString) :
    escapedQuoteRe.replace (js "\"") (apostropheRe.replace (js "\\'") (stringify key)) =
      quote :: unescapeQuotes (key.flatMap token ++ [quote]) := by
  have happend : apostropheRe.replace (js "\\'") (stringify key) =
      quote :: (key.flatMap token ++ [quote]) := by
    rw [← replace_apostrophe, apostropheRe, replace_cls, replace_cls, stringify]
    rw [List.flatMap_append, List.flatMap_cons]
    rfl
  rw [happend, replace_escapedQuote]
  exact replacePairs_left rfl

theorem formatName_eq {key x : JSString} (hkey : ¬ IsIdentifier key)
    (hx : unescapeQuotes (key.flatMap token ++ [quote]) = x ++ [quote]) :
    formatName colors key = stylize colors (apostrophe :: x ++ [apostrophe]) .string := by
  unfold formatName
  dsimp only
  rw [if_neg (mt (identifierRe_iff key).mp hkey), replace_key, hx]
  have hends : endsGroupRe.replace (js "'") (quote :: x ++ [quote]) = js "'" ++ x ++ js "'" :=
    (isEnds_group 1 _).replace rfl rfl
  exact congrArg (stylize colors · .string) hends

/-- The backslash in front of the last quote is taken for one that escapes it. -/
theorem formatName_backslash {s : JSString} (hkey : ¬ IsIdentifier (s ++ [backslash])) :
    formatName colors (s ++ [backslash]) =
      stylize colors (apostrophe :: (s.flatMap printed ++ [backslash]) ++ [apostrophe]) .string := by
  refine formatName_eq colors hkey ?_
  have htoken : token backslash = [backslash, backslash] := by decide
  have hnext : ([backslash, backslash] ++ [quote]).head? ≠ some quote := by decide
  rw [List.flatMap_append, List.flatMap_singleton, htoken, List.append_assoc,
    unescapeQuotes_flatMap fun _ => hnext, List.append_assoc]
  rfl

theorem stylize_inj {x y : JSString} {style : Style}
    (h : stylize colors x style = stylize colors y style) : x = y := by
  unfold stylize at h
  split at h
  · exact List.append_cancel_left (List.append_cancel_right h)
  · exact h

/-- A key that is no identifier is printed like a string of the same text if and only if it does not
end in a backslash. -/
theorem formatName_iff {key : JSString} (hkey : ¬ IsIdentifier key) :
    formatName colors key = formatString colors key ↔ key.getLast? ≠ some backslash := by
  rw [formatString_eq]
  constructor
  · intro h hlast
    obtain ⟨s, rfl⟩ := List.getLast?_eq_some_iff.mp hlast
    rw [formatName_backslash colors hkey] at h
    have hlength := congrArg List.length (stylize_inj colors h)
    have hprinted : printed backslash = [backslash, backslash] := by decide
    rw [List.flatMap_append, List.flatMap_singleton, hprinted] at hlength
    simp at hlength
  · intro hlast
    refine formatName_eq colors hkey ?_
    rw [unescapeQuotes_flatMap fun h => absurd h hlast]
    rfl

theorem formatName_iff_path :
    formatName false (js "C:\\dir's") = formatString false (js "C:\\dir's") := by
  have hkey : ¬ IsIdentifier (js "C:\\dir's") := by
    intro h
    cases h.2 0x3A (by decide +kernel)
  exact (formatName_iff false hkey).mpr (by decide +kernel)

/-- The key `C:\` loses its backslash. -/
theorem formatName_ne_formatString :
    ¬ ∀ (colors : Bool) (key : JSString), ¬ IsIdentifier key →
      formatName colors key = formatString colors key := by
  intro h
  have hkey : ¬ IsIdentifier (js "C:\\") := by
    intro h
    cases h.2 0x3A (by decide +kernel)
  exact absurd (h false _ hkey) (by decide +kernel)

end

end NodeJS.Util
