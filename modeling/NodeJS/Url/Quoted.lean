import NodeJS.Url.Escaped

/-! An apostrophe in the user part gets into the `href`. -/
namespace NodeJS.Url

def IsProto (proto : JSString) : Prop :=
  ∃ name, proto = name ++ [colon] ∧ name ≠ [] ∧ ∀ c ∈ name, isAlnum c = true

/-- The text has a user with an apostrophe: after delimiters, the scheme and two slashes, which may
be missing after a scheme that is not one of those with slashes. Where there is no scheme, something
must follow the `@` that can be a host. -/
def QuotedUser (slashesDenoteHost : Bool) (url : JSString) : Prop :=
  ∃ front proto slashes user rest,
    url = front ++ (proto ++ (slashes ++ (user ++ atSign :: rest))) ∧
    (∀ c ∈ front, delims.contains c = true) ∧
    (∀ c ∈ user, nonAuthChars.contains c = false) ∧ apostrophe ∈ user ∧
    (IsProto proto ∧ proto ∉ hostlessProtocol ∧
        (slashes = [slash, slash] ∨ slashes = [] ∧ proto ∉ slashedProtocol) ∨
      proto = [] ∧ slashes = [slash, slash] ∧
        (slashesDenoteHost = true ∨ ∃ c more, rest = c :: more ∧ c ≠ atSign ∧ c ≠ slash))

theorem dropWhile_front {front x : JSString} (hfront : ∀ c ∈ front, delims.contains c = true)
    {c : UInt16} (hc : x.head? = some c) (hdelim : delims.contains c = false) :
    (front ++ x).dropWhile delims.contains = x := by
  obtain ⟨more, rfl⟩ := List.head?_eq_some_iff.mp hc
  rw [List.dropWhile_append_of_pos hfront, List.dropWhile_cons_of_neg (by rw [hdelim]; decide)]

theorem protocolPattern_proto {proto : JSString} (h : IsProto proto) (rest : JSString) :
    protocolPattern (proto ++ rest) = some proto := by
  obtain ⟨name, rfl, hne, hname⟩ := h
  have htake : (name ++ [colon] ++ rest).takeWhile isAlnum = name := by
    rw [List.append_assoc, List.takeWhile_append_of_pos hname, List.singleton_append,
      List.takeWhile_cons_of_neg (by decide), List.append_nil]
  unfold protocolPattern
  rw [htake, List.append_assoc]
  refine if_pos ⟨hne, ?_⟩
  rw [List.drop_left]
  rfl

theorem protocolPattern_slash (rest : JSString) : protocolPattern (slash :: rest) = none := by
  have htake : (slash :: rest).takeWhile isAlnum = [] := List.takeWhile_cons_of_neg (by decide)
  unfold protocolPattern
  rw [htake]
  exact if_neg fun h => h.1 rfl

theorem head_proto {proto : JSString} (h : IsProto proto) (rest : JSString) :
    ∃ c, (proto ++ rest).head? = some c ∧ delims.contains c = false := by
  obtain ⟨name, rfl, hne, hname⟩ := h
  obtain ⟨c, name, rfl⟩ := List.exists_cons_of_ne_nil hne
  have hsafe : Safe (c :: name) := safe_of_class (p := isAlnum) (by decide) hname
  exact ⟨c, rfl, (hsafe c List.mem_cons_self).1⟩

theorem userAtHost_append {user : JSString} (huser : ∀ c ∈ user, c ≠ atSign ∧ c ≠ slash)
    (hne : user ≠ []) (rest : JSString) :
    userAtHost (slash :: slash :: (user ++ atSign :: rest)) = true ↔
      ∃ c more, rest = c :: more ∧ c ≠ atSign ∧ c ≠ slash := by
  have htake : (user ++ atSign :: rest).takeWhile (fun c => c != atSign && c != slash) = user := by
    rw [List.takeWhile_append_of_pos, List.takeWhile_cons_of_neg (by decide), List.append_nil]
    intro c hc
    simp [huser c hc]
  have hdrop : (slash :: slash :: (user ++ atSign :: rest)).drop (2 + user.length) =
      atSign :: rest := by
    rw [Nat.add_comm, List.drop_succ_cons, List.drop_succ_cons, List.drop_left]
  unfold userAtHost
  rw [List.drop_succ_cons, List.drop_succ_cons, List.drop_zero, htake]
  dsimp only
  rw [hdrop]
  cases rest with
  | nil => simp
  | cons c more => simp [hne]

/-- What the pattern matches. -/
theorem userAtHost_some {rest : JSString} (h : userAtHost rest = true) :
    ∃ user c more, rest = slash :: slash :: (user ++ atSign :: c :: more) ∧ user ≠ [] ∧
      (∀ d ∈ user, d ≠ atSign ∧ d ≠ slash) ∧ c ≠ atSign ∧ c ≠ slash := by
  have huser : ∀ d ∈ (rest.drop 2).takeWhile (fun c => c != atSign && c != slash),
      d ≠ atSign ∧ d ≠ slash := fun d hd => by simpa using List.mem_takeWhile_imp hd
  have hsplit : (rest.drop 2).takeWhile (fun c => c != atSign && c != slash) ++
      rest.drop (2 + ((rest.drop 2).takeWhile fun c => c != atSign && c != slash).length) =
        rest.drop 2 := by
    rw [← List.drop_drop]
    exact List.prefix_iff_eq_append.mp (List.takeWhile_prefix _)
  unfold userAtHost at h
  dsimp only at h
  generalize (rest.drop 2).takeWhile (fun c => c != atSign && c != slash) = user at *
  cases hdrop : rest.drop (2 + user.length) with
  | nil => simp [hdrop] at h
  | cons d more =>
    cases more with
    | nil => simp [hdrop] at h
    | cons c more =>
      simp only [hdrop, Bool.and_eq_true, beq_iff_eq, bne_iff_ne, Bool.not_eq_true',
        List.isEmpty_eq_false_iff] at h
      obtain ⟨⟨htake, hne⟩, ⟨rfl, hat⟩, hslash⟩ := h
      refine ⟨user, c, more, ?_, hne, huser, hat, hslash⟩
      rw [hdrop] at hsplit
      rw [hsplit, ← List.take_append_drop 2 rest, htake]
      rfl

section
variable {user : JSString} (huser : ∀ c ∈ user, nonAuthChars.contains c = false)
include huser

theorem not_mem_user {c : UInt16} (hc : nonAuthChars.contains c = true) : c ∉ user := fun hmem => by
  have hnot := huser c hmem
  rw [hc] at hnot
  cases hnot

theorem ne_of_user : ∀ c ∈ user, c ≠ atSign ∧ c ≠ slash := by
  intro c hc
  constructor
  · rintro rfl
    exact not_mem_user huser (by decide) hc
  · rintro rfl
    exact not_mem_user huser (by decide) hc

end

theorem slashes_ne {user rest : JSString} (huser : ∀ c ∈ user, nonAuthChars.contains c = false)
    (hne : user ≠ []) : (user ++ rest).take 2 ≠ [slash, slash] := by
  obtain ⟨c, user, rfl⟩ := List.exists_cons_of_ne_nil hne
  intro htake
  rw [List.cons_append, List.take_succ_cons] at htake
  refine not_mem_user huser (c := slash) (by decide) ?_
  rw [(List.cons_eq_cons.mp htake).1]
  exact List.mem_cons_self

theorem hasSlashes_iff {slashesDenoteHost : Bool} {proto : Option JSString} {rest : JSString} :
    hasSlashes slashesDenoteHost proto rest = true ↔
      (slashesDenoteHost = true ∨ proto.isSome = true ∨ userAtHost rest = true) ∧
        rest.take 2 = [slash, slash] ∧ has hostlessProtocol proto = false := by
  unfold hasSlashes
  simp [or_assoc, and_assoc]

/-- The auth of a user with an apostrophe. -/
theorem auth_of_quotedUser {slashesDenoteHost : Bool} {url : JSString}
    (h : QuotedUser slashesDenoteHost url) :
    ∃ user, ((hostText slashesDenoteHost (schemeOf url) (afterScheme url)).bind
      fun text => (pluckAuth text).1) = some user ∧ apostrophe ∈ user := by
  obtain ⟨front, proto, slashes, user, rest, rfl, hfront, huser, hmem, hcases⟩ := h
  have hne : user ≠ [] := List.ne_nil_of_mem hmem
  have hauth : ((some (user ++ atSign :: rest) : Option JSString).bind
      fun text => (pluckAuth text).1) = some user := by
    rw [Option.bind_some, pluckAuth_append huser]
  refine ⟨user, ?_, hmem⟩
  rw [← hauth]
  congr 1
  rcases hcases with ⟨hproto, hhostless, hslashes⟩ | ⟨rfl, rfl, hhost⟩
  · obtain ⟨c, hhead, hdelim⟩ := head_proto hproto (slashes ++ (user ++ atSign :: rest))
    have hscheme : schemeOf (front ++ (proto ++ (slashes ++ (user ++ atSign :: rest)))) =
        some proto := by
      rw [schemeOf, dropWhile_front hfront hhead hdelim, protocolPattern_proto hproto]
    have hafter : afterScheme (front ++ (proto ++ (slashes ++ (user ++ atSign :: rest)))) =
        slashes ++ (user ++ atSign :: rest) := by
      rw [afterScheme, hscheme, dropWhile_front hfront hhead hdelim, Option.getD_some,
        List.drop_left]
    have hhas : has hostlessProtocol (some proto) = false := by
      simpa [has] using hhostless
    rw [hscheme, hafter, hostText]
    rcases hslashes with rfl | ⟨rfl, hslashed⟩
    · exact if_pos (hasSlashes_iff.mpr ⟨.inr (.inl rfl), rfl, hhas⟩)
    · have hslashed' : has slashedProtocol (some proto) = false := by
        simpa [has] using hslashed
      rw [List.nil_append, if_neg fun hslash =>
        slashes_ne huser hne (hasSlashes_iff.mp hslash).2.1, hhas, hslashed']
      rfl
  · have hafter : (front ++ ([] ++ ([slash, slash] ++ (user ++ atSign :: rest)))).dropWhile
        delims.contains = [slash, slash] ++ (user ++ atSign :: rest) :=
      dropWhile_front hfront rfl (by decide)
    have hscheme : schemeOf (front ++ ([] ++ ([slash, slash] ++ (user ++ atSign :: rest)))) =
        none := by
      rw [schemeOf, hafter]
      exact protocolPattern_slash _
    rw [afterScheme, hscheme, hafter, hostText]
    refine if_pos (hasSlashes_iff.mpr ⟨?_, rfl, rfl⟩)
    exact hhost.imp_right fun h => .inr ((userAtHost_append (ne_of_user huser) hne rest).mpr h)

/-- And only such a user has one. -/
theorem quotedUser_of_auth {slashesDenoteHost : Bool} {url user : JSString}
    (h : ((hostText slashesDenoteHost (schemeOf url) (afterScheme url)).bind
      fun text => (pluckAuth text).1) = some user) (hmem : apostrophe ∈ user) :
    QuotedUser slashesDenoteHost url := by
  have hne : user ≠ [] := List.ne_nil_of_mem hmem
  obtain ⟨text, htext, hauth⟩ := Option.bind_eq_some_iff.mp h
  obtain ⟨rest, rfl, huser⟩ : ∃ rest, text = user ++ atSign :: rest ∧
      ∀ c ∈ user, nonAuthChars.contains c = false := by
    rcases pluckAuth_cases text with hnone | ⟨user', rest, htext, huser, hsome⟩
    · rw [hnone] at hauth
      cases hauth
    · rw [hsome] at hauth
      obtain rfl := Option.some.inj hauth
      exact ⟨rest, htext, huser⟩
  have hurl : url = url.takeWhile delims.contains ++ url.dropWhile delims.contains :=
    List.takeWhile_append_dropWhile.symm
  have hfront : ∀ c ∈ url.takeWhile delims.contains, delims.contains c = true :=
    fun c hc => List.mem_takeWhile_imp hc
  -- what the slashes are, if there is a host at all
  have hslashes : ∃ slashes, afterScheme url = slashes ++ (user ++ atSign :: rest) ∧
      (slashes = [slash, slash] ∧ hasSlashes slashesDenoteHost (schemeOf url) (afterScheme url) ∨
        slashes = [] ∧ (schemeOf url).isSome ∧ has hostlessProtocol (schemeOf url) = false ∧
          has slashedProtocol (schemeOf url) = false) := by
    unfold hostText at htext
    split_ifs at htext with hslash hplain
    · have hdrop := Option.some.inj htext
      refine ⟨[slash, slash], ?_, .inl ⟨rfl, hslash⟩⟩
      rw [← hdrop, ← (hasSlashes_iff.mp hslash).2.1, List.take_append_drop]
    · refine ⟨[], Option.some.inj htext, .inr ⟨rfl, ?_⟩⟩
      simpa [and_assoc] using hplain
  obtain ⟨slashes, hafter, hslashes⟩ := hslashes
  refine ⟨url.takeWhile delims.contains, (schemeOf url).getD [], slashes, user, rest, ?_, hfront,
    huser, hmem, ?_⟩
  · rw [← hafter, afterScheme]
    cases hscheme : schemeOf url with
    | none => exact hurl
    | some proto =>
      obtain ⟨name, more, -, hrest, -⟩ := protocolPattern_some hscheme
      conv_lhs => rw [hurl, hrest]
      rw [Option.getD_some, hrest, List.drop_left]
  · cases hscheme : schemeOf url with
    | none =>
      rw [hscheme] at hslashes
      rcases hslashes with ⟨rfl, hslash⟩ | ⟨-, hnone, -⟩
      · obtain ⟨hwhy, -, -⟩ := hasSlashes_iff.mp hslash
        rw [hafter] at hwhy
        refine .inr ⟨rfl, rfl, ?_⟩
        rcases hwhy with hdenote | hnone | hmatch
        · exact .inl hdenote
        · cases hnone
        · exact .inr ((userAtHost_append (ne_of_user huser) hne rest).mp hmatch)
      · cases hnone
    | some proto =>
      rw [hscheme] at hslashes
      obtain ⟨name, more, hproto, -, hname⟩ := protocolPattern_some hscheme
      refine .inl ⟨⟨name, hproto, hname⟩, ?_⟩
      rcases hslashes with ⟨rfl, hslash⟩ | ⟨rfl, -, hhostless, hslashed⟩
      · have hhostless := (hasSlashes_iff.mp hslash).2.2
        exact ⟨by simpa [has] using hhostless, .inl rfl⟩
      · exact ⟨by simpa [has] using hhostless, .inr ⟨rfl, by simpa [has] using hslashed⟩⟩

/-- Without a user part that has an apostrophe, neither an apostrophe nor a delimiter gets into the
`href`. -/
theorem href_safe_iff (Q : QueryString) (url : JSString)
    (parseQueryString slashesDenoteHost : Bool)
    (h : (schemeOf url).map toLowerCase ≠ some (js "javascript:")) :
    Safe (urlParse Q url parseQueryString slashesDenoteHost).href ↔
      ¬ QuotedUser slashesDenoteHost url := by
  have hproto : Safe (((schemeOf url).map toLowerCase).getD []) := by
    cases hscheme : schemeOf url with
    | none => exact safe_nil
    | some proto => exact safe_protocol hscheme
  have hunsafe : has unsafeProtocol ((schemeOf url).map toLowerCase) = false := by
    cases hscheme : schemeOf url with
    | none => rfl
    | some proto =>
      rw [hscheme] at h
      obtain ⟨name, more, rfl, -⟩ := protocolPattern_some hscheme
      have hcolon : toLowerCase (name ++ [colon]) ≠ js "javascript" := by
        intro heq
        have hlast := congrArg List.getLast? heq
        rw [toLowerCase, List.map_append, List.map_singleton, List.getLast?_concat] at hlast
        exact absurd hlast (by decide)
      have hjavascript : toLowerCase (name ++ [colon]) ≠ js "javascript:" :=
        fun heq => h (congrArg some heq)
      simp [has, unsafeProtocol, hcolon, hjavascript]
  have hsafe : ∀ rest, Safe (tailText (schemeOf url) rest) := by
    intro rest
    rw [tailText, hunsafe]
    exact safe_chop rest
  rw [urlParse_eq]
  dsimp only
  rw [safe_assemble _ _ hproto _ _ (hsafe _)]
  cases hauth : (hostText slashesDenoteHost (schemeOf url) (afterScheme url)).bind
      fun text => (pluckAuth text).1 with
  | none =>
    refine iff_of_true safe_nil fun hquoted => ?_
    obtain ⟨user, huser, -⟩ := auth_of_quotedUser hquoted
    rw [hauth] at huser
    cases huser
  | some user =>
    constructor
    · intro hsafe hquoted
      obtain ⟨user', huser', hmem⟩ := auth_of_quotedUser hquoted
      rw [hauth] at huser'
      obtain rfl := Option.some.inj huser'
      exact (hsafe apostrophe hmem).2 rfl
    · intro hquoted c hc
      refine ⟨?_, fun heq => hquoted (quotedUser_of_auth hauth (heq ▸ hc))⟩
      -- a delimiter would have ended the auth
      obtain ⟨text, -, hpluck⟩ := Option.bind_eq_some_iff.mp hauth
      rcases pluckAuth_cases text with hnone | ⟨user', rest, -, huser, hsome⟩
      · rw [hnone] at hpluck
        cases hpluck
      · rw [hsome] at hpluck
        obtain rfl := Option.some.inj hpluck
        refine Bool.eq_false_iff.mpr fun hmem => ?_
        have hnot := huser c hc
        rw [nonAuthChars, List.contains_iff_mem.mpr
          (List.mem_append_right _ (List.contains_iff_mem.mp hmem))] at hnot
        cases hnot

def noQuery : QueryString := ⟨Unit, fun _ => (), (), fun _ => [], fun _ => [], rfl⟩

theorem href_safe_iff_mailto :
    Safe (urlParse noQuery (js "<mailto:a'b@c.d/x'y>") false false).href ↔
      ¬ QuotedUser false (js "<mailto:a'b@c.d/x'y>") :=
  href_safe_iff noQuery _ false false (by decide +kernel)

/-- `http://o'brien@host/` -/
theorem href_apostrophe :
    (schemeOf (js "http://o'brien@host/")).map toLowerCase ≠ some (js "javascript:") ∧
      (urlParse noQuery (js "http://o'brien@host/") false false).href =
        js "http://o'brien@host/" ∧
      ¬ Safe (urlParse noQuery (js "http://o'brien@host/") false false).href := by
  have hhref : (urlParse noQuery (js "http://o'brien@host/") false false).href =
      js "http://o'brien@host/" := by decide +kernel
  refine ⟨by decide +kernel, hhref, ?_⟩
  rw [hhref]
  decide

end NodeJS.Url
