import NodeJS.Url.Bare

/-! The same URL with its scheme in other letters. -/
namespace NodeJS.Url

/-! ### Schemes -/

def IsSchemeText (s : JSString) : Prop :=
  s ≠ [] ∧ ∀ c ∈ s, isAlnum c = true ∨ (js "+-.").contains c = true

instance (s : JSString) : Decidable (IsSchemeText s) := inferInstanceAs (Decidable (_ ∧ _))

def slashedNames : List JSString := [js "http", js "https", js "ftp", js "gopher", js "file"]

/-- What a table has for a scheme is what it has under the colon. -/
theorem has_iff {table names : List JSString}
    (h : table.filterMap (fun x => if x.getLast? = some colon then some x.dropLast else none) =
      names)
    (s : JSString) : has table (some (s ++ [colon])) = true ↔ s ∈ names := by
  have hmem : has table (some (s ++ [colon])) = true ↔ s ++ [colon] ∈ table := by
    simp [has]
  rw [hmem, ← h, List.mem_filterMap]
  constructor
  · intro hs
    exact ⟨_, hs, by rw [List.getLast?_concat, List.dropLast_concat, if_pos rfl]⟩
  · rintro ⟨x, hx, hsome⟩
    split_ifs at hsome with hlast
    obtain rfl := Option.some.inj hsome
    have hne : x ≠ [] := by
      rintro rfl
      cases hlast
    have hcolon : x.getLast hne = colon := by
      rwa [List.getLast?_eq_some_getLast hne, Option.some.injEq] at hlast
    rwa [← hcolon, List.dropLast_append_getLast]

theorem has_slashed (s : JSString) :
    has slashedProtocol (some (s ++ [colon])) = true ↔ s ∈ slashedNames := has_iff (by decide) s

theorem has_hostless (s : JSString) :
    has hostlessProtocol (some (s ++ [colon])) = true ↔ s ∈ [js "javascript"] :=
  has_iff (by decide) s

/-- Names in a table are written in small letters. -/
theorem toLowerCase_name {s : JSString} (h : s ∈ js "javascript" :: slashedNames) :
    toLowerCase s = s := by
  have hall : ∀ x ∈ js "javascript" :: slashedNames, toLowerCase x = x := by decide
  exact hall s h

section
variable {Q : QueryString} {s s' r : JSString} (parseQueryString slashesDenoteHost : Bool)

/-- The parse of a URL with a scheme that the pattern matches. -/
theorem urlParse_scheme (hs : s ≠ []) (halnum : ∀ c ∈ s, isAlnum c = true) :
    urlParse Q (s ++ colon :: r) parseQueryString slashesDenoteHost =
      let proto := some (s ++ [colon])
      let text := hostText slashesDenoteHost proto r
      assemble proto (hasSlashes slashesDenoteHost proto r)
        (text.map fun text => (hostStage text).1)
        (tailStage Q parseQueryString
          (tailText proto (text.elim r fun text => (hostStage text).2))) := by
  have hproto : IsProto (s ++ [colon]) := ⟨s, rfl, hs, halnum⟩
  have hurl : s ++ colon :: r = (s ++ [colon]) ++ r := by rw [List.append_assoc]; rfl
  obtain ⟨c, hhead, hdelim⟩ := head_proto hproto r
  have hdrop : ((s ++ [colon]) ++ r).dropWhile delims.contains = (s ++ [colon]) ++ r :=
    @dropWhile_front [] _ nofun c hhead hdelim
  have hscheme : schemeOf (s ++ colon :: r) = some (s ++ [colon]) := by
    rw [schemeOf, hurl, hdrop, protocolPattern_proto hproto]
  have hafter : afterScheme (s ++ colon :: r) = r := by
    rw [afterScheme, hscheme, hurl, hdrop, Option.getD_some, List.drop_left]
  rw [urlParse_eq, hscheme, hafter]

theorem toLowerCase_colon (s : JSString) :
    toLowerCase (s ++ [colon]) = toLowerCase s ++ [colon] := by
  rw [toLowerCase, List.map_append]
  rfl

/-- The tables decide everything. -/
theorem urlParse_congr (hs : s ≠ []) (hs' : s' ≠ []) (halnum : ∀ c ∈ s, isAlnum c = true)
    (halnum' : ∀ c ∈ s', isAlnum c = true) (hcase : toLowerCase s' = toLowerCase s)
    (hhostless : has hostlessProtocol (some (s' ++ [colon])) =
      has hostlessProtocol (some (s ++ [colon])))
    (hslashed : has slashedProtocol (some (s' ++ [colon])) =
      has slashedProtocol (some (s ++ [colon]))) :
    urlParse Q (s' ++ colon :: r) parseQueryString slashesDenoteHost =
      urlParse Q (s ++ colon :: r) parseQueryString slashesDenoteHost := by
  have hlower : (some (s' ++ [colon])).map toLowerCase = (some (s ++ [colon])).map toLowerCase := by
    rw [Option.map_some, Option.map_some, toLowerCase_colon, toLowerCase_colon, hcase]
  have htext : hostText slashesDenoteHost (some (s' ++ [colon])) r =
      hostText slashesDenoteHost (some (s ++ [colon])) r := by
    unfold hostText hasSlashes
    rw [hhostless, hslashed]
    rfl
  rw [urlParse_scheme _ _ hs halnum, urlParse_scheme _ _ hs' halnum']
  dsimp only
  rw [htext]
  unfold hasSlashes tailText assemble
  rw [hhostless, hslashed, hlower]
  rfl

/-- Where there is a host. -/
theorem isSome_host (hs : s ≠ []) (halnum : ∀ c ∈ s, isAlnum c = true) :
    (urlParse Q (s ++ colon :: r) parseQueryString slashesDenoteHost).host.isSome =
      (!has hostlessProtocol (some (s ++ [colon])) &&
        (r.take 2 == [slash, slash] || !has slashedProtocol (some (s ++ [colon])))) := by
  have hhost : (urlParse Q (s ++ colon :: r) parseQueryString slashesDenoteHost).host.isSome =
      (hostText slashesDenoteHost (some (s ++ [colon])) r).isSome := by
    rw [urlParse_scheme _ _ hs halnum]
    unfold assemble
    dsimp only
    rw [Option.isSome_map, Option.isSome_map]
  rw [hhost]
  unfold hostText hasSlashes
  cases has hostlessProtocol (some (s ++ [colon])) with
  | true => simp
  | false =>
    cases r.take 2 == [slash, slash] with
    | true => simp
    | false => cases has slashedProtocol (some (s ++ [colon])) <;> simp

/-- What a scheme that is in the table for slashes sets. -/
theorem assemble_eq_iff {proto proto' : Option JSString}
    (hlower : proto.map toLowerCase = proto'.map toLowerCase)
    (hslashed : has slashedProtocol proto = true) (hslashed' : has slashedProtocol proto' = false)
    (slashes : Bool) (host : Host) (tail : Tail Q) :
    assemble proto slashes (some host) tail = assemble proto' slashes (some host) tail ↔
      ¬ (host.hostname ≠ [] ∧ tail.pathname = []) := by
  have htruthy := isSome_truthy host.hostname
  constructor
  · rintro heq ⟨hname, hpath⟩
    have hpathname := congrArg Parsed.pathname heq
    simp [assemble, hslashed, hslashed', hpath, htruthy, hname] at hpathname
  · intro h
    have hpathname : (has slashedProtocol proto && (truthy (some host.hostname)).isSome) = true →
        tail.pathname ≠ [] := by
      intro hset hpath
      rw [htruthy] at hset
      exact h ⟨of_decide_eq_true (Bool.and_eq_true_iff.mp hset).2, hpath⟩
    unfold assemble
    simp only [hlower, hslashed', Option.map_some, Bool.false_and, Bool.false_eq_true, if_false]
    by_cases hpath : tail.pathname = []
    · have hnot := mt hpathname (not_not.mpr hpath)
      simp only [hpath, hnot, ne_eq, not_true_eq_false, Bool.false_eq_true, if_false]
    · simp only [ne_eq, hpath, not_false_eq_true, if_true]

-- unfolded, these run through the strings of delimiters
attribute [local irreducible] firstNonHost chop

/-- With two slashes, a scheme in the table differs from one that is not only by the slash that it
sets for the path. -/
theorem urlParse_slashed_iff (hs : s ≠ []) (hs' : s' ≠ []) (halnum : ∀ c ∈ s, isAlnum c = true)
    (halnum' : ∀ c ∈ s', isAlnum c = true) (hcase : toLowerCase s' = toLowerCase s)
    (hname : s ∈ slashedNames) (hname' : s' ∉ slashedNames) (hr : r.take 2 = [slash, slash]) :
    urlParse Q (s ++ colon :: r) parseQueryString slashesDenoteHost =
      urlParse Q (s' ++ colon :: r) parseQueryString slashesDenoteHost ↔ ¬ Bare (r.drop 2) := by
  have hlower : (some (s ++ [colon])).map toLowerCase = (some (s' ++ [colon])).map toLowerCase := by
    rw [Option.map_some, Option.map_some, toLowerCase_colon, toLowerCase_colon, hcase]
  have hsmall : toLowerCase s = s := toLowerCase_name (List.mem_cons_of_mem _ hname)
  have hnot : s ∉ [js "javascript"] := by
    intro hmem
    rw [List.mem_singleton] at hmem
    rw [hmem] at hname
    exact absurd hname (by decide)
  have hnot' : s' ∉ [js "javascript"] := by
    intro hmem
    refine hnot ?_
    rw [List.mem_singleton] at hmem ⊢
    rw [← hsmall, ← hcase, hmem]
    decide
  have hhostless : has hostlessProtocol (some (s ++ [colon])) = false :=
    Bool.eq_false_iff.mpr (mt (has_hostless s).mp hnot)
  have hhostless' : has hostlessProtocol (some (s' ++ [colon])) = false :=
    Bool.eq_false_iff.mpr (mt (has_hostless s').mp hnot')
  have hunsafe : has unsafeProtocol ((some (s ++ [colon])).map toLowerCase) = false := by
    rw [Option.map_some, toLowerCase_colon, hsmall]
    exact hhostless
  have hslashes : ∀ {proto : JSString}, has hostlessProtocol (some proto) = false →
      hasSlashes slashesDenoteHost (some proto) r = true := by
    intro proto hproto
    exact hasSlashes_iff.mpr ⟨.inr (.inl rfl), hr, hproto⟩
  have htext : ∀ {proto : JSString}, has hostlessProtocol (some proto) = false →
      hostText slashesDenoteHost (some proto) r = some (r.drop 2) := by
    intro proto hproto
    exact if_pos (hslashes hproto)
  rw [urlParse_scheme _ _ hs halnum, urlParse_scheme _ _ hs' halnum']
  dsimp only
  rw [htext hhostless, htext hhostless', hslashes hhostless, hslashes hhostless']
  unfold tailText
  rw [← hlower, hunsafe, Option.map_some, Option.elim_some]
  rw [assemble_eq_iff hlower ((has_slashed s).mpr hname)
    (Bool.eq_false_iff.mpr (mt (has_slashed s').mp hname')), ← bare_iff]
  exact not_congr (and_congr_right fun _ => by rw [← pathname_chop (Q := Q) parseQueryString]; rfl)

end

/-! ### Other letters -/

theorem isAlnum_lowerUnit_eq (c : UInt16) : isAlnum (lowerUnit c) = isAlnum c := by
  by_cases hupper : 0x41 ≤ c ∧ c ≤ 0x5A
  · have hc : isAlnum c = true := by simp [isAlnum, hupper.1, hupper.2]
    rw [hc, isAlnum_lowerUnit hc]
  · rw [lowerUnit, if_neg hupper]

theorem mark_lowerUnit_eq (c : UInt16) :
    (js "+-.").contains (lowerUnit c) = (js "+-.").contains c := by
  by_cases hupper : 0x41 ≤ c ∧ c ≤ 0x5A
  · have hnot : ∀ d : UInt16, isAlnum d = true → (js "+-.").contains d = false := by
      intro d hd
      refine Bool.eq_false_iff.mpr fun hmem => ?_
      have hall : ∀ x ∈ js "+-.", isAlnum x = false := by decide
      rw [hall d (List.contains_iff_mem.mp hmem)] at hd
      cases hd
    have hc : isAlnum c = true := by simp [isAlnum, hupper.1, hupper.2]
    rw [hnot c hc, hnot _ (isAlnum_lowerUnit hc)]
  · rw [lowerUnit, if_neg hupper]

theorem alnum_toLowerCase (s : JSString) :
    (∀ c ∈ toLowerCase s, isAlnum c = true) ↔ ∀ c ∈ s, isAlnum c = true := by
  simp only [toLowerCase, List.forall_mem_map, isAlnum_lowerUnit_eq]

theorem isSchemeText_toLowerCase (s : JSString) :
    IsSchemeText (toLowerCase s) ↔ IsSchemeText s := by
  simp only [IsSchemeText, toLowerCase, List.forall_mem_map, isAlnum_lowerUnit_eq,
    mark_lowerUnit_eq, ne_eq, List.map_eq_nil_iff]

theorem pathChar_of_schemeText {s : JSString} (hs : IsSchemeText s) :
    ∀ c ∈ s ++ [colon], isPathChar c = true ∧ c ≠ apostrophe := by
  let p : UInt16 → Bool := fun c => isAlnum c || (js "+-.:").contains c
  have hclass : ∀ c, p c = true → isPathChar c = true ∧ c ≠ apostrophe := by
    intro c hc
    have hsafe : Safe [c] := safe_of_class (p := p) (by decide) (List.forall_mem_singleton.mpr hc)
    obtain ⟨hdelim, hapostrophe⟩ := hsafe c (List.mem_singleton_self c)
    have hquestion : c ≠ questionMark := by
      rintro rfl
      exact absurd hc (by decide)
    have hhash : c ≠ hashMark := by
      rintro rfl
      exact absurd hc (by decide)
    refine ⟨?_, hapostrophe⟩
    rw [isPathChar, hdelim, bne_iff_ne.mpr hquestion, bne_iff_ne.mpr hhash]
    rfl
  intro c hc
  refine hclass c ?_
  rcases List.mem_append.mp hc with hc | hc
  · rcases hs.2 c hc with h | h
    · simp only [p, h, Bool.true_or]
    · have hmem : c ∈ js "+-.:" := List.mem_append_left [colon] (List.contains_iff_mem.mp h)
      simp only [p, List.contains_iff_mem.mpr hmem, Bool.or_true]
  · rw [List.mem_singleton.mp hc]
    decide

theorem exists_mark {s : JSString} (h : ¬ ∀ c ∈ s, isAlnum c = true) :
    ∃ front d more, s = front ++ d :: more ∧ (∀ c ∈ front, isAlnum c = true) ∧
      isAlnum d = false := by
  induction s with
  | nil => exact absurd (fun c hc => absurd hc List.not_mem_nil) h
  | cons c s ih =>
    cases hc : isAlnum c with
    | false => exact ⟨[], c, s, rfl, nofun, hc⟩
    | true =>
      obtain ⟨front, d, more, rfl, hfront, hd⟩ := ih fun hall =>
        h (List.forall_mem_cons.mpr ⟨hc, hall⟩)
      exact ⟨c :: front, d, more, rfl, List.forall_mem_cons.mpr ⟨hc, hfront⟩, hd⟩

section
variable {Q : QueryString} {s s' r : JSString} (parseQueryString slashesDenoteHost : Bool)

/-- A scheme that the pattern does not match is the beginning of the path. -/
theorem pathname_of_mark (hs : IsSchemeText s) (h : ¬ ∀ c ∈ s, isAlnum c = true) :
    (urlParse Q (s ++ colon :: r) parseQueryString slashesDenoteHost).pathname =
      some (s ++ colon :: pathText r) := by
  obtain ⟨c, s', hcons⟩ := List.exists_cons_of_ne_nil hs.1
  have hchars := pathChar_of_schemeText hs
  have hhead : (s ++ colon :: r).head? = some c := by rw [hcons]; rfl
  have hc : isPathChar c = true := (hchars c (by rw [hcons]; exact List.mem_cons_self)).1
  have hdelim : delims.contains c = false := by
    simpa using ((Bool.and_eq_true _ _).mp hc).1
  have hslash : c ≠ slash := by
    rintro rfl
    exact absurd (hs.2 slash (by rw [hcons]; exact List.mem_cons_self)) (by decide)
  have hdrop : (s ++ colon :: r).dropWhile delims.contains = s ++ colon :: r :=
    @dropWhile_front [] _ nofun c hhead hdelim
  have hscheme : schemeOf (s ++ colon :: r) = none := by
    obtain ⟨front, d, more, hsplit, hfront, hmark⟩ := exists_mark h
    have hne : d ≠ colon := by
      rintro rfl
      have hmem : colon ∈ s := by
        rw [hsplit]
        exact List.mem_append_right _ List.mem_cons_self
      exact absurd (hs.2 colon hmem) (by decide)
    have htake : (s ++ colon :: r).takeWhile isAlnum = front := by
      rw [hsplit, List.append_assoc, List.takeWhile_append_of_pos hfront, List.cons_append,
        List.takeWhile_cons_of_neg (by rw [hmark]; decide), List.append_nil]
    have hnext : (s ++ colon :: r).drop front.length = d :: (more ++ colon :: r) := by
      rw [hsplit, List.append_assoc, List.drop_left]
      rfl
    rw [schemeOf, hdrop, protocolPattern, htake]
    refine if_neg fun hmatch => hne ?_
    rw [hnext] at hmatch
    exact Option.some.inj hmatch.2
  have hafter : afterScheme (s ++ colon :: r) = s ++ colon :: r := by
    rw [afterScheme, hscheme, hdrop]
    rfl
  have htext : hostText slashesDenoteHost none (s ++ colon :: r) = none := by
    refine if_neg fun hslashes => hslash ?_
    have htake := (hasSlashes_iff.mp hslashes).2.1
    rw [hcons, List.cons_append, List.take_succ_cons] at htake
    exact (List.cons_eq_cons.mp htake).1
  have hpath : pathText (s ++ colon :: r) = s ++ colon :: pathText r := by
    have happend := pathText_append hchars r
    rwa [List.append_assoc, List.append_assoc] at happend
  rw [urlParse_eq, hscheme, hafter]
  dsimp only
  rw [htext]
  have htail : (tailStage Q parseQueryString (tailText none (s ++ colon :: r))).pathname =
      s ++ colon :: pathText r := by
    rw [← hpath, ← pathname_chop (Q := Q) parseQueryString]
    rfl
  unfold assemble
  dsimp only
  rw [Option.elim_none, htail, if_pos (by simp)]

end

/-- What the two spellings of a scheme have to do with the rest. -/
def SameParse (s s' r : JSString) : Prop :=
  s' = s ∨ (∀ c ∈ s, isAlnum c = true) ∧
    (toLowerCase s ∉ js "javascript" :: slashedNames ∨
      s ≠ toLowerCase s ∧ s' ≠ toLowerCase s ∨
      toLowerCase s ∈ slashedNames ∧ r.take 2 = [slash, slash] ∧ ¬ Bare (r.drop 2))

section
variable {Q : QueryString} {s s' r : JSString} (parseQueryString slashesDenoteHost : Bool)

/-- The letters of a scheme that is not in a table do not matter. -/
theorem urlParse_untabled (hs : s ≠ []) (hs' : s' ≠ []) (halnum : ∀ c ∈ s, isAlnum c = true)
    (halnum' : ∀ c ∈ s', isAlnum c = true) (hcase : toLowerCase s' = toLowerCase s)
    (hname : s ∉ js "javascript" :: slashedNames) (hname' : s' ∉ js "javascript" :: slashedNames) :
    urlParse Q (s' ++ colon :: r) parseQueryString slashesDenoteHost =
      urlParse Q (s ++ colon :: r) parseQueryString slashesDenoteHost := by
  have hfalse : ∀ {x : JSString}, x ∉ js "javascript" :: slashedNames →
      has hostlessProtocol (some (x ++ [colon])) = false ∧
        has slashedProtocol (some (x ++ [colon])) = false := by
    intro x hx
    rw [List.mem_cons, not_or] at hx
    exact ⟨Bool.eq_false_iff.mpr (mt (has_hostless x).mp (by simpa using hx.1)),
      Bool.eq_false_iff.mpr (mt (has_slashed x).mp hx.2)⟩
  obtain ⟨hhostless, hslashed⟩ := hfalse hname
  obtain ⟨hhostless', hslashed'⟩ := hfalse hname'
  exact urlParse_congr _ _ hs hs' halnum halnum' hcase (by rw [hhostless, hhostless'])
    (by rw [hslashed, hslashed'])

/-- A name in a table, and the same in other letters. -/
theorem urlParse_tabled_iff (hs : s ≠ []) (hs' : s' ≠ []) (halnum : ∀ c ∈ s, isAlnum c = true)
    (halnum' : ∀ c ∈ s', isAlnum c = true) (hcase : toLowerCase s' = toLowerCase s)
    (hname : s ∈ js "javascript" :: slashedNames) (hname' : s' ≠ s) :
    urlParse Q (s ++ colon :: r) parseQueryString slashesDenoteHost =
      urlParse Q (s' ++ colon :: r) parseQueryString slashesDenoteHost ↔
        s ∈ slashedNames ∧ r.take 2 = [slash, slash] ∧ ¬ Bare (r.drop 2) := by
  have hsmall : toLowerCase s = s := toLowerCase_name hname
  have hnot' : s' ∉ js "javascript" :: slashedNames := by
    intro hmem
    rw [← hcase, toLowerCase_name hmem] at hsmall
    exact hname' hsmall
  rw [List.mem_cons, not_or] at hnot'
  have hhostless' : has hostlessProtocol (some (s' ++ [colon])) = false :=
    Bool.eq_false_iff.mpr (mt (has_hostless s').mp (by simpa using hnot'.1))
  have hslashed' : has slashedProtocol (some (s' ++ [colon])) = false :=
    Bool.eq_false_iff.mpr (mt (has_slashed s').mp hnot'.2)
  -- the other spelling always has a host
  have hhost' := isSome_host (Q := Q) (r := r) parseQueryString slashesDenoteHost hs' halnum'
  have hhost := isSome_host (Q := Q) (r := r) parseQueryString slashesDenoteHost hs halnum
  rw [hhostless', hslashed'] at hhost'
  by_cases hslashed : s ∈ slashedNames
  · by_cases hr : r.take 2 = [slash, slash]
    · rw [urlParse_slashed_iff _ _ hs hs' halnum halnum' hcase hslashed hnot'.2 hr]
      simp [hslashed, hr]
    · refine iff_of_false (fun heq => ?_) fun h => hr h.2.1
      have hr' : (r.take 2 == [slash, slash]) = false := by simpa using hr
      rw [heq, hhost', (has_slashed s).mpr hslashed, hr'] at hhost
      simp at hhost
  · refine iff_of_false (fun heq => ?_) fun h => hslashed h.1
    have hjavascript : s = js "javascript" := (List.mem_cons.mp hname).resolve_right hslashed
    have hscript : has hostlessProtocol (some (s ++ [colon])) = true :=
      (has_hostless s).mpr (List.mem_singleton.mpr hjavascript)
    rw [heq, hhost', hscript] at hhost
    simp at hhost

end

/-- When the letters of a scheme do not matter. -/
theorem urlParse_recase_iff (Q : QueryString) {s s' : JSString} (hs : IsSchemeText s)
    (hcase : toLowerCase s' = toLowerCase s) (r : JSString)
    (parseQueryString slashesDenoteHost : Bool) :
    urlParse Q (s' ++ colon :: r) parseQueryString slashesDenoteHost =
      urlParse Q (s ++ colon :: r) parseQueryString slashesDenoteHost ↔ SameParse s s' r := by
  have hs' : IsSchemeText s' := by rwa [← isSchemeText_toLowerCase, hcase, isSchemeText_toLowerCase]
  unfold SameParse
  by_cases heq : s' = s
  · rw [heq]
    exact iff_of_true rfl (.inl rfl)
  by_cases halnum : ∀ c ∈ s, isAlnum c = true
  · have halnum' : ∀ c ∈ s', isAlnum c = true := by
      rwa [← alnum_toLowerCase, hcase, alnum_toLowerCase]
    by_cases hname : toLowerCase s ∈ js "javascript" :: slashedNames
    · by_cases hsmall : s = toLowerCase s
      · rw [← hsmall] at hname
        rw [eq_comm, urlParse_tabled_iff _ _ hs.1 hs'.1 halnum halnum' hcase hname heq, ← hsmall]
        simp only [heq, hname, false_or, not_true_eq_false, ne_eq, false_and]
        exact (and_iff_right halnum).symm
      · by_cases hsmall' : s' = toLowerCase s
        · rw [← hsmall'] at hname
          rw [urlParse_tabled_iff _ _ hs'.1 hs.1 halnum' halnum hcase.symm hname (Ne.symm heq),
            ← hsmall']
          simp only [heq, hname, false_or, not_true_eq_false, ne_eq, and_false]
          exact (and_iff_right halnum).symm
        · refine iff_of_true ?_ (.inr ⟨halnum, .inr (.inl ⟨hsmall, hsmall'⟩)⟩)
          have hnot : s ∉ js "javascript" :: slashedNames := fun hmem =>
            hsmall (toLowerCase_name hmem).symm
          have hnot' : s' ∉ js "javascript" :: slashedNames := fun hmem =>
            hsmall' ((toLowerCase_name hmem).symm.trans hcase)
          exact urlParse_untabled _ _ hs.1 hs'.1 halnum halnum' hcase hnot hnot'
    · refine iff_of_true ?_ (.inr ⟨halnum, .inl hname⟩)
      have hnot : s ∉ js "javascript" :: slashedNames := fun hmem =>
        hname ((toLowerCase_name hmem).symm ▸ hmem)
      have hnot' : s' ∉ js "javascript" :: slashedNames := fun hmem =>
        hname (hcase ▸ (toLowerCase_name hmem).symm ▸ hmem)
      exact urlParse_untabled _ _ hs.1 hs'.1 halnum halnum' hcase hnot hnot'
  · refine iff_of_false (fun hparse => heq ?_) fun h => h.elim heq fun h => halnum h.1
    have halnum' : ¬ ∀ c ∈ s', isAlnum c = true := by
      rwa [← alnum_toLowerCase, hcase, alnum_toLowerCase]
    have hpath := congrArg Parsed.pathname hparse
    rw [pathname_of_mark _ _ hs halnum, pathname_of_mark _ _ hs' halnum'] at hpath
    have hlength : s'.length = s.length := by
      have hlength := congrArg List.length hcase
      rwa [toLowerCase, toLowerCase, List.length_map, List.length_map] at hlength
    exact (List.append_inj (Option.some.inj hpath) hlength).1

theorem urlParse_recase_iff_mailto :
    urlParse noQuery (js "MAILTO" ++ colon :: js "a@b.c") false false =
      urlParse noQuery (js "mailto" ++ colon :: js "a@b.c") false false ↔
        SameParse (js "mailto") (js "MAILTO") (js "a@b.c") :=
  urlParse_recase_iff noQuery (by decide) (by decide) _ false false

/-- `HTTP://x` -/
theorem urlParse_recase_http :
    toLowerCase (js "HTTP") = toLowerCase (js "http") ∧
      (urlParse noQuery (js "http" ++ colon :: js "//x") false false).pathname = some (js "/") ∧
      (urlParse noQuery (js "HTTP" ++ colon :: js "//x") false false).pathname = none ∧
      urlParse noQuery (js "HTTP" ++ colon :: js "//x") false false ≠
        urlParse noQuery (js "http" ++ colon :: js "//x") false false := by
  have hsmall : (urlParse noQuery (js "http" ++ colon :: js "//x") false false).pathname =
      some (js "/") := by decide +kernel
  have hbig : (urlParse noQuery (js "HTTP" ++ colon :: js "//x") false false).pathname = none := by
    decide +kernel
  refine ⟨by decide, hsmall, hbig, fun heq => ?_⟩
  rw [heq, hsmall] at hbig
  cases hbig

end NodeJS.Url
