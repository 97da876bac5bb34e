import NodeJS.Url.Bare

/-! What the validation of a hostname moves into the path, and what it loses. -/
namespace NodeJS.Url

def givenName (text : JSString) : JSString :=
  ((parseHost (cutHost (pluckAuth text).2).1).2).getD []

def afterHost (text : JSString) : JSString := (cutHost (pluckAuth text).2).2

/-- No character of the name is lost: what is not accepted stands in front of the rest. -/
def Keeps (name rest accepted rest' : JSString) : Prop :=
  ∃ moved, (moved = [] ∧ rest' = rest ∨ rest' = slash :: moved ++ rest) ∧
    accepted ++ toLowerCase moved = toLowerCase name

def BeginsValid (name : JSString) : Prop :=
  ∀ valid part notHost, name.splitOn dot = valid ++ part :: notHost →
    (∀ part ∈ valid, ValidPart part) → ¬ ValidPart part → (hostnamePartStart part).isSome

/-! ### Parts and what they are parts of -/

theorem hostnamePartStart_some {part bit more : JSString}
    (h : hostnamePartStart part = some (bit, more)) : part = bit ++ more := by
  cases part with
  | nil => cases h
  | cons c part =>
    unfold hostnamePartStart at h
    dsimp only at h
    split_ifs at h
    obtain ⟨rfl, rfl⟩ := Prod.mk.inj (Option.some.inj h)
    have hprefix : (part.takeWhile isNameChar).take 62 <+: part :=
      (List.take_prefix _ _).trans (List.takeWhile_prefix _)
    exact congrArg (c :: ·) (List.prefix_iff_eq_append.mp hprefix).symm

/-- A part may be cut in two. -/
theorem intercalate_cut (sep : JSString) (valid : List JSString) (bit more : JSString)
    (notHost : List JSString) :
    sep.intercalate (valid ++ [bit]) ++ sep.intercalate (more :: notHost) =
      sep.intercalate (valid ++ (bit ++ more) :: notHost) := by
  induction valid with
  | nil =>
    rw [List.nil_append, List.nil_append, List.intercalate_singleton]
    cases notHost with
    | nil => rw [List.intercalate_singleton, List.intercalate_singleton]
    | cons next notHost =>
      rw [List.intercalate_cons_cons, List.intercalate_cons_cons]
      simp only [List.append_assoc]
  | cons part valid ih =>
    have hl : valid ++ [bit] ≠ [] := by simp
    have hr : valid ++ (bit ++ more) :: notHost ≠ [] := by simp
    rw [List.cons_append, List.cons_append, List.intercalate_cons_of_ne_nil hl,
      List.intercalate_cons_of_ne_nil hr, List.append_assoc, ih]

/-- A part that is left out is missing. -/
theorem length_intercalate_lt (sep : JSString) (valid : List JSString) {part : JSString}
    (hne : part ≠ []) (notHost : List JSString) :
    (sep.intercalate valid).length + (sep.intercalate notHost).length <
      (sep.intercalate (valid ++ part :: notHost)).length := by
  have hpos := List.length_pos_of_ne_nil hne
  have htail : (sep.intercalate notHost).length + part.length ≤
      (sep.intercalate (part :: notHost)).length := by
    cases notHost with
    | nil =>
      rw [List.intercalate_singleton, List.intercalate_nil, List.length_nil]
      omega
    | cons next notHost =>
      rw [List.intercalate_cons_cons, List.length_append, List.length_append]
      omega
  induction valid with
  | nil =>
    rw [List.nil_append, List.intercalate_nil, List.length_nil]
    omega
  | cons first valid ih =>
    have hall : valid ++ part :: notHost ≠ [] := by simp
    rw [List.cons_append, List.intercalate_cons_of_ne_nil hall, List.length_append,
      List.length_append]
    cases valid with
    | nil =>
      rw [List.intercalate_singleton, List.nil_append]
      omega
    | cons second valid =>
      rw [List.intercalate_cons_cons, List.length_append, List.length_append]
      omega

/-! ### What becomes of a name -/

/-- The first part of a name that is not valid, with the parts before and after it. -/
def FirstInvalid (name : JSString) (valid : List JSString) (part : JSString)
    (notHost : List JSString) : Prop :=
  name.splitOn dot = valid ++ part :: notHost ∧ (∀ part ∈ valid, ValidPart part) ∧ ¬ ValidPart part

section
variable {name : JSString} {valid : List JSString} {part : JSString} {notHost : List JSString}

theorem firstInvalid_of (h : FirstInvalid name valid part notHost) :
    firstInvalid [] (name.splitOn dot) = some (valid, part, notHost) := by
  obtain ⟨hparts, hvalid, hpart⟩ := h
  obtain ⟨hne, hpattern⟩ := not_or.mp hpart
  rw [hparts, firstInvalid_append hvalid hne (Bool.eq_false_iff.mpr hpattern)]
  rfl

theorem name_cases (name : JSString) : (∀ part ∈ name.splitOn dot, ValidPart part) ∨
    ∃ valid part notHost, FirstInvalid name valid part notHost := by
  rcases firstInvalid_spec [] (name.splitOn dot) with ⟨-, hall⟩ | ⟨valid, part, notHost, -, hparts,
    hvalid, hne, hpart⟩
  · exact .inl hall
  · exact .inr ⟨valid, part, notHost, hparts, hvalid, not_or.mpr ⟨hne, by simp [hpart]⟩⟩

theorem validate_valid (hlength : name.length ≤ hostnameMaxLen)
    (h : ∀ part ∈ name.splitOn dot, ValidPart part) (rest : JSString) :
    validate name rest = (name, rest) := by
  unfold validate
  rw [if_neg (Nat.not_lt.mpr hlength), firstInvalid_valid h]

theorem validate_long (hlong : hostnameMaxLen < name.length) (rest : JSString) :
    validate name rest = ([], rest) := if_pos hlong

theorem validate_start (hlength : name.length ≤ hostnameMaxLen)
    (h : FirstInvalid name valid part notHost) {bit more : JSString}
    (hstart : hostnamePartStart part = some (bit, more)) (rest : JSString) :
    validate name rest = ([dot].intercalate (valid ++ [bit]),
      slash :: [dot].intercalate (more :: notHost) ++ rest) := by
  unfold validate
  rw [if_neg (Nat.not_lt.mpr hlength), firstInvalid_of h]
  dsimp only
  rw [hstart]
  rfl

theorem validate_no_start (hlength : name.length ≤ hostnameMaxLen)
    (h : FirstInvalid name valid part notHost) (hstart : hostnamePartStart part = none)
    (rest : JSString) : validate name rest = ([dot].intercalate valid,
      (if notHost = [] then [] else slash :: [dot].intercalate notHost) ++ rest) := by
  unfold validate
  rw [if_neg (Nat.not_lt.mpr hlength), firstInvalid_of h]
  dsimp only
  rw [hstart]
  by_cases hnil : notHost = []
  · simp [hnil]
  · simp [hnil]

end

/-! ### What is kept -/

theorem toLowerCase_append (s t : JSString) :
    toLowerCase (s ++ t) = toLowerCase s ++ toLowerCase t := List.map_append

theorem length_toLowerCase (s : JSString) : (toLowerCase s).length = s.length := List.length_map _

theorem validate_keeps_iff {name : JSString} (hlength : name.length ≤ hostnameMaxLen)
    (rest : JSString) :
    Keeps name rest (toLowerCase (validate name rest).1) (validate name rest).2 ↔
      BeginsValid name := by
  rcases name_cases name with hall | ⟨valid, part, notHost, hfirst⟩
  · rw [validate_valid hlength hall]
    refine iff_of_true ⟨[], .inl ⟨rfl, rfl⟩, List.append_nil _⟩ ?_
    intro valid part notHost hparts _ hpart
    exact absurd (hall part (by rw [hparts]; simp)) hpart
  have hname : name = [dot].intercalate (valid ++ part :: notHost) := by
    rw [← hfirst.1, List.intercalate_splitOn]
  have hbegins : BeginsValid name ↔ (hostnamePartStart part).isSome := by
    constructor
    · intro hall
      exact hall valid part notHost hfirst.1 hfirst.2.1 hfirst.2.2
    · intro hstart valid' part' notHost' hparts' hvalid' hinvalid'
      have hsame := (firstInvalid_of hfirst).symm.trans
        (firstInvalid_of ⟨hparts', hvalid', hinvalid'⟩)
      obtain ⟨-, rfl, -⟩ : valid = valid' ∧ part = part' ∧ notHost = notHost' := by
        simpa using hsame
      exact hstart
  rw [hbegins]
  cases hstart : hostnamePartStart part with
  | some found =>
    obtain ⟨bit, more⟩ := found
    rw [validate_start hlength hfirst hstart]
    refine iff_of_true ⟨[dot].intercalate (more :: notHost), .inr rfl, ?_⟩ rfl
    rw [← toLowerCase_append, intercalate_cut, ← hostnamePartStart_some hstart, ← hname]
  | none =>
    rw [validate_no_start hlength hfirst hstart]
    refine iff_of_false ?_ (by simp)
    rintro ⟨moved, hmoved, hsame⟩
    dsimp only at hmoved hsame
    have hshort := length_intercalate_lt [dot] valid (fun hnil => hfirst.2.2 (.inl hnil)) notHost
    have hlong := congrArg List.length hsame
    rw [List.length_append, length_toLowerCase, length_toLowerCase, length_toLowerCase, hname]
      at hlong
    have hbehind : moved.length ≤ ([dot].intercalate notHost).length := by
      rcases hmoved with ⟨rfl, -⟩ | hrest
      · exact Nat.zero_le _
      · have hlong := congrArg List.length hrest
        split_ifs at hlong
        · simp only [List.length_append, List.length_cons, List.length_nil] at hlong
          omega
        · simp only [List.length_append, List.length_cons] at hlong
          omega
    omega

theorem length_givenName_le (text : JSString) :
    (givenName text).length ≤ (cutHost (pluckAuth text).2).1.length := by
  unfold givenName parseHost
  cases portPattern (cutHost (pluckAuth text).2).1 with
  | none =>
    dsimp only
    split_ifs with hnil
    · simp
    · exact le_refl _
  | some port =>
    dsimp only
    split_ifs
    · simp
    · rw [Option.getD_some, List.length_take]
      exact Nat.min_le_right _ _

-- unfolded, these run through the strings of delimiters
attribute [local irreducible] firstNonHost chop

/-- What the hostname of a URL does not keep goes into the path, unless it is of a part of which
nothing can be kept. -/
theorem hostname_keeps_iff (Q : QueryString) {url : JSString} (parseQueryString : Bool)
    {slashesDenoteHost : Bool} {text : JSString}
    (htext : hostText slashesDenoteHost (schemeOf url) (afterScheme url) = some text)
    (hlength : (cutHost (pluckAuth text).2).1.length ≤ hostnameMaxLen) :
    (∃ accepted, (urlParse Q url parseQueryString slashesDenoteHost).hostname = some accepted ∧
      Keeps (givenName text) (afterHost text) accepted (hostStage text).2) ↔
      BeginsValid (givenName text) := by
  have hname : (urlParse Q url parseQueryString slashesDenoteHost).hostname =
      some (hostStage text).1.hostname := by
    rw [urlParse_eq]
    dsimp only
    rw [htext]
    rfl
  rw [hname, ← validate_keeps_iff ((length_givenName_le text).trans hlength) (afterHost text)]
  constructor
  · rintro ⟨accepted, haccepted, hkeeps⟩
    obtain rfl := Option.some.inj haccepted
    exact hkeeps
  · exact fun hkeeps => ⟨_, rfl, hkeeps⟩

/-- `http://a.B*c:80/d` -/
theorem hostname_keeps_iff_star :
    (∃ accepted, (urlParse noQuery (js "http://a.B*c:80/d") false false).hostname = some accepted ∧
      Keeps (givenName (js "a.B*c:80/d")) (afterHost (js "a.B*c:80/d")) accepted
        (hostStage (js "a.B*c:80/d")).2) ↔
      BeginsValid (givenName (js "a.B*c:80/d")) :=
  @hostname_keeps_iff noQuery (js "http://a.B*c:80/d") false false _
    (by decide +kernel) (by decide +kernel)

/-- Of `http://a.*b.c/` the part in the middle is lost. -/
theorem hostname_loses : ¬ ∀ (url : JSString) (slashesDenoteHost : Bool) (text : JSString),
    hostText slashesDenoteHost (schemeOf url) (afterScheme url) = some text →
    (cutHost (pluckAuth text).2).1.length ≤ hostnameMaxLen →
    ∃ accepted, (urlParse noQuery url false slashesDenoteHost).hostname = some accepted ∧
      Keeps (givenName text) (afterHost text) accepted (hostStage text).2 := by
  intro h
  obtain ⟨accepted, haccepted, moved, hmoved, hsame⟩ := h (js "http://a.*b.c/") false
    (js "a.*b.c/") (by decide +kernel) (by decide +kernel)
  have hname : (urlParse noQuery (js "http://a.*b.c/") false false).hostname = some (js "a") := by
    decide +kernel
  have hrest : (hostStage (js "a.*b.c/")).2 = js "/c/" := by decide +kernel
  have hafter : afterHost (js "a.*b.c/") = js "/" := by decide +kernel
  have hgiven : (givenName (js "a.*b.c/")).length = 6 := by decide +kernel
  obtain rfl := Option.some.inj (hname.symm.trans haccepted)
  have hlength := congrArg List.length hsame
  rw [List.length_append, length_toLowerCase, length_toLowerCase, hgiven] at hlength
  rw [hrest, hafter] at hmoved
  rcases hmoved with ⟨rfl, -⟩ | hmoved
  · cases hlength
  · have hlong := congrArg List.length hmoved
    simp only [List.length_append, List.length_cons] at hlong
    have h₁ : (js "a").length = 1 := rfl
    have h₂ : (js "/c/").length = 3 := rfl
    have h₃ : (js "/").length = 1 := rfl
    omega

end NodeJS.Url
