import NodeJS.Url.Reread

/-! When the parse of an `href` leaves it as it is. -/
namespace NodeJS.Url

-- unfolded, these run through the strings of delimiters
attribute [local irreducible] firstNonHost chop

/-! ### What becomes of a name -/

/-- Nothing of the name is kept, and this much of it goes into the path. -/
def Drops (name moved : JSString) : Prop :=
  (name = [] ∨ hostnameMaxLen < name.length) ∧ moved = [] ∨
    name.length ≤ hostnameMaxLen ∧ ∃ valid part notHost, FirstInvalid name valid part notHost ∧
      hostnamePartStart part = none ∧ [dot].intercalate valid = [] ∧
      moved = if notHost = [] then [] else slash :: [dot].intercalate notHost

/-- Nothing of the name goes into the path. -/
def Stays (name : JSString) : Prop :=
  hostnameMaxLen < name.length ∨ ∀ valid part notHost, FirstInvalid name valid part notHost →
    hostnamePartStart part = none ∧ notHost = []

theorem validate_of_drops {name moved : JSString} (h : Drops name moved) (rest : JSString) :
    validate name rest = ([], moved ++ rest) := by
  rcases h with ⟨hname | hlong, rfl⟩ | ⟨hlength, valid, part, notHost, hfirst, hstart, hnil, rfl⟩
  · rw [hname]
    rfl
  · exact validate_long hlong rest
  · rw [validate_no_start hlength hfirst hstart, hnil]

theorem exists_drops {name rest : JSString} (h : (validate name rest).1 = []) :
    ∃ moved, Drops name moved := by
  by_cases hlong : hostnameMaxLen < name.length
  · exact ⟨[], .inl ⟨.inr hlong, rfl⟩⟩
  have hlength := Nat.le_of_not_gt hlong
  rcases name_cases name with hall | ⟨valid, part, notHost, hfirst⟩
  · rw [validate_valid hlength hall] at h
    exact ⟨[], .inl ⟨.inl h, rfl⟩⟩
  · cases hstart : hostnamePartStart part with
    | none =>
      rw [validate_no_start hlength hfirst hstart] at h
      exact ⟨_, .inr ⟨hlength, valid, part, notHost, hfirst, hstart, h, rfl⟩⟩
    | some found =>
      obtain ⟨bit, more⟩ := found
      have hbit : bit ≠ [] := by
        rintro rfl
        cases hostnamePartPattern_bit hstart
      have hpos := length_intercalate_lt [dot] valid hbit []
      rw [validate_start hlength hfirst hstart] at h
      dsimp only at h
      rw [h, List.length_nil] at hpos
      cases hpos

/-- When the text behind the host is what stood there. -/
theorem stays_iff (name rest : JSString) : Stays name ↔ (validate name rest).2 = rest := by
  have hmore : ∀ moved : JSString, slash :: moved ++ rest ≠ rest := fun moved heq => by
    have hlength := congrArg List.length heq
    rw [List.length_append, List.length_cons] at hlength
    omega
  by_cases hlong : hostnameMaxLen < name.length
  · rw [validate_long hlong]
    exact iff_of_true (.inl hlong) rfl
  have hlength := Nat.le_of_not_gt hlong
  have hunfold : Stays name ↔ ∀ valid part notHost, FirstInvalid name valid part notHost →
      hostnamePartStart part = none ∧ notHost = [] := or_iff_right hlong
  rw [hunfold]
  constructor
  · intro h
    rcases name_cases name with hall | ⟨valid, part, notHost, hfirst⟩
    · rw [validate_valid hlength hall]
    · obtain ⟨hstart, rfl⟩ := h valid part notHost hfirst
      rw [validate_no_start hlength hfirst hstart]
      rfl
  · intro h valid part notHost hfirst
    cases hstart : hostnamePartStart part with
    | some found =>
      rw [validate_start hlength hfirst hstart] at h
      exact absurd h (hmore _)
    | none =>
      refine ⟨rfl, ?_⟩
      by_contra hne
      rw [validate_no_start hlength hfirst hstart, if_neg hne] at h
      exact hmore _ h

/-! ### The scheme of an `href` -/

theorem isProto_schemeOf {url proto : JSString} (h : schemeOf url = some proto) : IsProto proto := by
  obtain ⟨name, more, hproto, -, hname⟩ := protocolPattern_some h
  exact ⟨name, hproto, hname⟩

theorem scheme_append {proto : JSString} (h : IsProto proto) (rest : JSString) :
    schemeOf (proto ++ rest) = some proto ∧ afterScheme (proto ++ rest) = rest := by
  obtain ⟨c, hhead, hdelim⟩ := head_proto h rest
  have hdrop : (proto ++ rest).dropWhile delims.contains = proto ++ rest :=
    @dropWhile_front [] _ nofun c hhead hdelim
  have hscheme : schemeOf (proto ++ rest) = some proto := by
    rw [schemeOf, hdrop, protocolPattern_proto h]
  refine ⟨hscheme, ?_⟩
  rw [afterScheme, hscheme, hdrop, Option.getD_some, List.drop_left]

theorem scheme_none {rest : JSString} (hhead : ∀ c ∈ rest.head?, delims.contains c = false)
    (h : protocolPattern rest = none) : schemeOf rest = none ∧ afterScheme rest = rest := by
  have hdrop : rest.dropWhile delims.contains = rest := by
    cases rest with
    | nil => rfl
    | cons c rest => exact List.dropWhile_cons_of_neg (by rw [hhead c rfl]; decide)
  have hscheme : schemeOf rest = none := by rw [schemeOf, hdrop, h]
  refine ⟨hscheme, ?_⟩
  rw [afterScheme, hscheme, hdrop]
  rfl

theorem scheme_slash (rest : JSString) :
    schemeOf (slash :: rest) = none ∧ afterScheme (slash :: rest) = slash :: rest := by
  refine scheme_none (fun c hc => ?_) (protocolPattern_slash rest)
  obtain rfl := Option.some.inj hc
  decide

/-- A text without a scheme has none when it is cleaned. -/
theorem scheme_tidy {rest : JSString} (h : protocolPattern rest = none) :
    schemeOf (tidy rest) = none ∧ afterScheme (tidy rest) = tidy rest := by
  refine scheme_none (fun c hc => (safe_tidy rest c (List.mem_of_head? hc)).1) ?_
  cases hproto : protocolPattern (tidy rest) with
  | none => rfl
  | some proto =>
    obtain ⟨name, more, hname, htidy, hne, halnum⟩ := protocolPattern_some hproto
    have hpercent : percentSign ∉ proto := by
      rw [hname]
      intro hmem
      rcases List.mem_append.mp hmem with hmem | hmem
      · exact absurd (halnum percentSign hmem) (by decide)
      · exact absurd hmem (by decide)
    obtain ⟨z, hrest, -⟩ := tidy_eq_append hpercent htidy
    rw [hrest, protocolPattern_proto ⟨name, hname, hne, halnum⟩] at h
    cases h

/-! ### The rest of an `href` -/

section
variable {proto : Option JSString} {rest : JSString}

theorem bodyText_slashes (h : hasSlashes false proto rest = true) : bodyText proto rest =
    slash :: slash :: ((hostStage (rest.drop 2)).1.host ++
      rooted (has slashedProtocol proto && decide ((hostStage (rest.drop 2)).1.hostname ≠ []))
        (tidy (hostStage (rest.drop 2)).2)) := if_pos h

/-- With a host behind slashes, nothing changes. -/
theorem bodyText_fixed (h : hasSlashes false proto rest = true)
    (hagain : hasSlashes false proto (bodyText proto rest) = true) :
    bodyText proto (bodyText proto rest) = bodyText proto rest := by
  have htail := rooted_spec (has slashedProtocol proto &&
    decide ((hostStage (rest.drop 2)).1.hostname ≠ [])) (tidy (hostStage (rest.drop 2)).2)
  obtain ⟨hhost, hname, hrest⟩ := hostStage_again (rest.drop 2) htail.isTail
    (pluckAuth_rooted htail)
  have hdrop : (bodyText proto rest).drop 2 = (hostStage (rest.drop 2)).1.host ++
      rooted (has slashedProtocol proto && decide ((hostStage (rest.drop 2)).1.hostname ≠ []))
        (tidy (hostStage (rest.drop 2)).2) := by
    rw [bodyText_slashes h]
    rfl
  rw [bodyText_slashes hagain, hdrop, hhost, hname, hrest, tidy_safe (safe_rooted _ (safe_tidy _)),
    rooted_rooted, bodyText_slashes h]

end

/-! ### A host without slashes -/

/-- The text after the first slash of two becomes the text behind the slashes of the `href`. -/
def SlashesNext (rest z : JSString) : Prop :=
  givenPort rest = none ∧ ∃ moved, Drops (givenName rest) moved ∧
    moved ++ afterHost rest = slash :: slash :: z

/-- An `@` behind the host comes to stand where it ends an auth. -/
def AuthNext (rest z : JSString) : Prop :=
  Stays (givenName rest) ∧ ∃ user, pluckAuth (afterHost rest) = (some user, z)

theorem take_two_iff {s : JSString} :
    s.take 2 = [slash, slash] ↔ ∃ z, s = slash :: slash :: z := by
  constructor
  · intro h
    exact ⟨s.drop 2, by rw [← List.take_append_drop 2 s, h]; rfl⟩
  · rintro ⟨z, rfl⟩
    rfl

/-- When nothing of a host is left. -/
theorem host_nil_iff (rest : JSString) : acceptedName rest ++ portText (givenPort rest) = [] ↔
    givenPort rest = none ∧ ∃ moved, Drops (givenName rest) moved := by
  constructor
  · intro h
    obtain ⟨hname, htext⟩ := List.append_eq_nil_iff.mp h
    refine ⟨?_, exists_drops (List.map_eq_nil_iff.mp hname)⟩
    cases hgiven : givenPort rest with
    | none => rfl
    | some digits =>
      rw [hgiven, portText, truthy_some (isPort_givenPort rest digits hgiven).1] at htext
      cases htext
  · rintro ⟨hnone, moved, hdrops⟩
    rw [acceptedName, validate_of_drops hdrops, hnone]
    rfl

theorem tail_of_drops {rest moved : JSString} (h : Drops (givenName rest) moved) :
    (hostStage rest).2 = moved ++ afterHost rest :=
  congrArg Prod.snd (validate_of_drops h (afterHost rest))

section
variable {rest : JSString} (hfalsy : truthy (pluckAuth rest).1 = none)
include hfalsy

theorem host_of_falsy :
    (hostStage rest).1.host = acceptedName rest ++ portText (givenPort rest) := by
  have hauth : authText (pluckAuth rest).1 = [] := by rw [authText, hfalsy]; rfl
  rw [hostStage_eq rest, hauth]
  rfl

theorem authChar_of_falsy : ∀ c ∈ (hostStage rest).1.host, nonAuthChars.contains c = false := by
  rw [host_of_falsy hfalsy]
  exact fun c hc => authChar_of_host (host_chars (stable_acceptedName rest) (isPort_givenPort rest) c hc)

theorem slashesNext_iff (z : JSString) :
    (hostStage rest).1.host ++ tidy (hostStage rest).2 = slash :: slash :: z ↔
      ∃ z₀, SlashesNext rest z₀ ∧ z = tidy z₀ := by
  rw [host_of_falsy hfalsy]
  constructor
  · intro h
    have hnil : acceptedName rest ++ portText (givenPort rest) = [] := by
      cases hhost : acceptedName rest ++ portText (givenPort rest) with
      | nil => rfl
      | cons c host =>
        have hchars := host_chars (stable_acceptedName rest) (isPort_givenPort rest)
        rw [hhost] at h hchars
        obtain ⟨rfl, -⟩ := List.cons_eq_cons.mp h
        exact absurd (hchars slash List.mem_cons_self).1 (by decide)
    obtain ⟨hnone, moved, hdrops⟩ := (host_nil_iff rest).mp hnil
    rw [hnil, List.nil_append, tail_of_drops hdrops] at h
    obtain ⟨z₀, htail, hz⟩ := @tidy_eq_append [slash, slash] (by decide) _ _ h
    exact ⟨z₀, ⟨hnone, moved, hdrops, htail⟩, hz⟩
  · rintro ⟨z₀, ⟨hnone, moved, hdrops, htail⟩, rfl⟩
    have hsafe : Safe [slash, slash] := by decide
    rw [(host_nil_iff rest).mpr ⟨hnone, moved, hdrops⟩, List.nil_append, tail_of_drops hdrops,
      htail]
    exact (tidy_append (fun c hc => (hsafe c hc).1) z₀).trans
      (congrArg (· ++ tidy z₀) (tidy_safe hsafe))

theorem authNext_iff (z : JSString) :
    (∃ user, pluckAuth ((hostStage rest).1.host ++ tidy (hostStage rest).2) = (some user, z)) ↔
      ∃ z₀, AuthNext rest z₀ ∧ z = tidy z₀ := by
  have hchars := authChar_of_falsy hfalsy
  have hmoved : ¬ Stays (givenName rest) → (pluckAuth (hostStage rest).2).1 = none := by
    intro hstays
    rcases validate_snd (givenName rest) (afterHost rest) with hsame | ⟨more, hmore⟩
    · exact absurd ((stays_iff _ _).mpr hsame) hstays
    · rw [hostStage_eq rest]
      dsimp only
      rw [hmore]
      refine pluckAuth_of_head fun c hc => ?_
      obtain rfl := Option.some.inj hc
      decide
  have hstayed : Stays (givenName rest) → (hostStage rest).2 = afterHost rest :=
    (stays_iff _ _).mp
  constructor
  · rintro ⟨user, hpluck⟩
    have hsome : ¬ (pluckAuth (hostStage rest).2).1 = none := by
      intro hnone
      have hnone := pluckAuth_append_none hchars (pluckAuth_tidy_none hnone)
      rw [hpluck] at hnone
      cases hnone
    have hstays : Stays (givenName rest) := by_contra fun h => hsome (hmoved h)
    rw [hstayed hstays] at hsome hpluck
    rcases pluckAuth_cases (afterHost rest) with hnone | ⟨user', more, -, -, hfound⟩
    · exact absurd (by rw [hnone]) hsome
    · rw [pluckAuth_append_some hchars (pluckAuth_tidy_some hfound)] at hpluck
      exact ⟨more, ⟨hstays, user', hfound⟩, (Prod.mk.inj hpluck).2.symm⟩
  · rintro ⟨z₀, ⟨hstays, user, hfound⟩, rfl⟩
    rw [hstayed hstays]
    exact ⟨_, pluckAuth_append_some hchars (pluckAuth_tidy_some hfound)⟩

theorem safe_hosted : Safe ((hostStage rest).1.host ++ tidy (hostStage rest).2) := by
  refine safe_append.mpr ⟨(safe_hostStage rest).mpr ?_, safe_tidy _⟩
  rw [← safe_truthy, hfalsy]
  exact safe_nil

theorem head_ne_at (more : JSString) :
    (hostStage rest).1.host ++ tidy (hostStage rest).2 ≠ atSign :: more := by
  intro h
  have hchars := authChar_of_falsy hfalsy
  cases hhost : (hostStage rest).1.host with
  | nil =>
    rw [hhost, List.nil_append] at h
    have htail := isTail_tidy (isTail_hostStage rest)
    rw [h] at htail
    exact absurd (htail atSign rfl) (by decide)
  | cons c host =>
    rw [hhost] at h hchars
    obtain ⟨rfl, -⟩ := List.cons_eq_cons.mp h
    exact absurd (hchars atSign List.mem_cons_self) (by decide)

/-- Without another auth, a host and its tail are left as they are. -/
theorem clean_hosted_iff :
    Clean false ((hostStage rest).1.host ++ tidy (hostStage rest).2) ↔
      ∀ z, AuthNext rest z → CleanHost false (tidy z) := by
  have hnext := authNext_iff hfalsy
  have hat := head_ne_at hfalsy
  have hclean := hostStage_eq_iff (safe_hosted hfalsy) false
  have hagain := hostStage_again rest (isTail_tidy (isTail_hostStage rest))
  rcases pluckAuth_cases ((hostStage rest).1.host ++ tidy (hostStage rest).2) with hnone | ⟨user,
    more, htext, -, hsome⟩
  · refine iff_of_true (hclean.mp ?_) fun z hz => ?_
    · obtain ⟨hhost, -, htail⟩ := hagain fun _ => by rw [hnone]
      rw [hhost, htail, tailOf, if_neg Bool.false_ne_true, tidy_safe (safe_tidy _)]
    · obtain ⟨user, hsome⟩ := (hnext (tidy z)).mpr ⟨z, hz, rfl⟩
      rw [hnone] at hsome
      cases hsome
  · obtain ⟨z₀, hz₀, rfl⟩ := (hnext more).mp ⟨user, hsome⟩
    unfold Clean
    rw [hsome]
    constructor
    · rintro ⟨-, hhost⟩ z ⟨-, user', hz⟩
      obtain ⟨-, user₀, huser₀⟩ := hz₀
      rw [hz] at huser₀
      rw [(Prod.mk.inj huser₀).2]
      exact hhost
    · intro h
      refine ⟨fun hnil => ?_, h z₀ hz₀⟩
      rw [Option.some.inj hnil] at htext
      exact hat _ htext

end

/-! ### The fixed points -/

/-- What a scheme that needs no slashes and has none makes of a text. -/
theorem bodyText_hosted {proto : JSString} (hhostless : has hostlessProtocol (some proto) = false)
    (hslashed : has slashedProtocol (some proto) = false) (rest : JSString) :
    bodyText (some proto) rest =
      if rest.take 2 = [slash, slash] then
        slash :: slash :: ((hostStage (rest.drop 2)).1.host ++ tailOf true (hostStage (rest.drop 2)).2)
      else (hostStage rest).1.host ++ tailOf false (hostStage rest).2 := by
  by_cases hrest : rest.take 2 = [slash, slash]
  · have hslashes : hasSlashes false (some proto) rest = true :=
      hasSlashes_iff.mpr ⟨.inr (.inl rfl), hrest, hhostless⟩
    rw [bodyText_slashes hslashes, if_pos hrest, hslashed, Bool.false_and]
    rfl
  · have hslashes : ¬ hasSlashes false (some proto) rest = true :=
      fun h => hrest (hasSlashes_iff.mp h).2.1
    unfold bodyText
    rw [if_neg hslashes, if_neg hrest, hhostless, hslashed]
    rfl

/-- Such a text is left as it is if it is clean. -/
theorem bodyText_hosted_iff {proto : JSString}
    (hhostless : has hostlessProtocol (some proto) = false)
    (hslashed : has slashedProtocol (some proto) = false) {rest : JSString} (hsafe : Safe rest) :
    bodyText (some proto) rest = rest ↔
      (∀ z, rest = slash :: slash :: z → Clean true z) ∧
        (rest.take 2 ≠ [slash, slash] → Clean false rest) := by
  rw [bodyText_hosted hhostless hslashed]
  by_cases hrest : rest.take 2 = [slash, slash]
  · obtain ⟨z, rfl⟩ := take_two_iff.mp hrest
    have hz : Safe z := (safe_cons.mp (safe_cons.mp hsafe).2).2
    rw [if_pos hrest]
    refine Iff.trans ?_ ((hostStage_eq_iff hz true).trans ?_)
    · simp
    · simp [hrest]
  · rw [if_neg hrest, hostStage_eq_iff hsafe false]
    constructor
    · exact fun h => ⟨fun z hz => absurd (take_two_iff.mpr ⟨z, hz⟩) hrest, fun _ => h⟩
    · exact fun h => h.2 hrest

/-- The `href` without a scheme loses its host when it is read again: of a user with an apostrophe
only the `@` is left in front of the path. -/
def LosesHost (rest : JSString) : Prop :=
  userAtHost rest = true ∧ ∃ user moved, (pluckAuth (rest.drop 2)).1 = some user ∧
    apostrophe ∈ user ∧ givenPort (rest.drop 2) = none ∧ Drops (givenName (rest.drop 2)) moved ∧
    ∀ c ∈ (moved ++ afterHost (rest.drop 2)).head?, c ≠ questionMark ∧ c ≠ hashMark

/-- Whatever is newly read as a host is clean already. -/
def Rereads (url : JSString) : Prop :=
  match schemeOf url with
  | none => ¬ LosesHost (afterScheme url)
  | some proto =>
    has hostlessProtocol (some proto) = true ∨ has slashedProtocol (some proto) = true ∨
      (afterScheme url).take 2 = [slash, slash] ∨
      (truthy (pluckAuth (afterScheme url)).1).isSome = true ∨
      (∀ z, SlashesNext (afterScheme url) z → Clean true (tidy z)) ∧
        ∀ z, AuthNext (afterScheme url) z → CleanHost false (tidy z)

theorem hosted_fixed_iff {proto : JSString} (hhostless : has hostlessProtocol (some proto) = false)
    (hslashed : has slashedProtocol (some proto) = false) {rest : JSString}
    (hrest : rest.take 2 ≠ [slash, slash]) :
    bodyText (some proto) (bodyText (some proto) rest) = bodyText (some proto) rest ↔
      (truthy (pluckAuth rest).1).isSome = true ∨
        (∀ z, SlashesNext rest z → Clean true (tidy z)) ∧
          ∀ z, AuthNext rest z → CleanHost false (tidy z) := by
  have hbody : bodyText (some proto) rest =
      (hostStage rest).1.host ++ tidy (hostStage rest).2 := by
    rw [bodyText_hosted hhostless hslashed, if_neg hrest]
    rfl
  rw [hbody]
  rcases authText_cases rest with ⟨hfalsy, -⟩ | ⟨user, hsome, hne, huser, hauth⟩
  · have hnext := slashesNext_iff hfalsy
    have hclean := clean_hosted_iff hfalsy
    rw [bodyText_hosted_iff hhostless hslashed (safe_hosted hfalsy), hfalsy]
    refine Iff.trans ?_ (or_iff_right (by simp)).symm
    have hfirst : (∀ z, (hostStage rest).1.host ++ tidy (hostStage rest).2 = slash :: slash :: z →
        Clean true z) ↔ ∀ z, SlashesNext rest z → Clean true (tidy z) := by
      constructor
      · exact fun h z hz => h _ ((hnext _).mpr ⟨z, hz, rfl⟩)
      · intro h z hz
        obtain ⟨z₀, hz₀, rfl⟩ := (hnext z).mp hz
        exact h z₀ hz₀
    rw [hfirst, ← hclean]
    refine and_congr_right fun _ => ⟨fun h => ?_, fun h _ => h⟩
    by_cases htwo : ((hostStage rest).1.host ++ tidy (hostStage rest).2).take 2 = [slash, slash]
    · -- behind two slashes no auth is looked for
      obtain ⟨z, hz⟩ := take_two_iff.mp htwo
      refine hclean.mpr fun z₁ hz₁ => ?_
      obtain ⟨user, huser⟩ := (authNext_iff hfalsy (tidy z₁)).mpr ⟨z₁, hz₁, rfl⟩
      have hnone := @pluckAuth_of_head (slash :: slash :: z) fun c hc => by
        obtain rfl := Option.some.inj hc
        decide
      rw [← hz, huser] at hnone
      cases hnone
    · exact h htwo
  · refine iff_of_true ?_ (.inl ?_)
    · have htwo : ((hostStage rest).1.host ++ tidy (hostStage rest).2).take 2 ≠
          [slash, slash] := by
        rw [hostStage_eq rest, hauth]
        simp only [List.append_assoc]
        exact slashes_ne huser hne
      obtain ⟨hhost, -, htail⟩ := hostStage_again rest (isTail_tidy (isTail_hostStage rest))
        fun h => by rw [hsome, truthy_some hne] at h; cases h
      rw [bodyText_hosted hhostless hslashed, if_neg htwo, hhost, htail, tailOf,
        if_neg Bool.false_ne_true, tidy_safe (safe_tidy _)]
    · rw [hsome, truthy_some hne]
      rfl

theorem head_rooted_iff (rest : JSString) :
    (∃ c more, rooted false (tidy rest) = c :: more ∧ c ≠ atSign ∧ c ≠ slash) ↔
      ∃ c ∈ rest.head?, c = questionMark ∨ c = hashMark := by
  cases rest with
  | nil => simp [tidy_nil, rooted]
  | cons c rest =>
    have hhead : (∃ d ∈ (c :: rest).head?, d = questionMark ∨ d = hashMark) ↔
        c = questionMark ∨ c = hashMark := by simp
    rw [hhead]
    by_cases hc : c = questionMark ∨ c = hashMark
    · have htidy : rooted false (tidy (c :: rest)) = c :: tidy rest := by
        rw [tidy_cons]
        rcases hc with rfl | rfl <;> rfl
      refine iff_of_true ⟨c, tidy rest, htidy, ?_⟩ hc
      rcases hc with rfl | rfl <;> decide
    · refine iff_of_false ?_ hc
      rintro ⟨d, more, hd, hat, hslash⟩
      have hroot := rooted_spec false (tidy (c :: rest))
      rw [hd] at hroot
      have hd' := (hroot d rfl).resolve_left hslash
      rw [tidy_cons] at hd
      split_ifs at hd with hquote hdelim
      · obtain ⟨rfl, -⟩ := List.cons_eq_cons.mp hd
        exact hslash rfl
      · cases hd
      · rw [rooted] at hd
        split_ifs at hd
        · obtain ⟨rfl, -⟩ := List.cons_eq_cons.mp hd
          exact hc hd'
        · obtain ⟨rfl, -⟩ := List.cons_eq_cons.mp hd
          exact hslash rfl

/-- When something that can be a host stands behind the user of an `href`. -/
theorem userAtHost_again {text user : JSString} (hsome : (pluckAuth text).1 = some user)
    (hne : user ≠ []) :
    userAtHost (slash :: slash :: ((hostStage text).1.host ++
        rooted false (tidy (hostStage text).2))) = true ↔
      ¬ (givenPort text = none ∧ ∃ moved, Drops (givenName text) moved ∧
        ∀ c ∈ (moved ++ afterHost text).head?, c ≠ questionMark ∧ c ≠ hashMark) := by
  obtain ⟨user', hsome', -, huser, hauth⟩ :=
    (authText_cases text).resolve_left fun h => by rw [hsome, truthy_some hne] at h; cases h.1
  obtain rfl := Option.some.inj (hsome'.symm.trans hsome)
  have htext : (hostStage text).1.host ++ rooted false (tidy (hostStage text).2) =
      user' ++ atSign :: (acceptedName text ++ portText (givenPort text) ++
        rooted false (tidy (hostStage text).2)) := by
    rw [hostStage_eq text, hauth]
    simp only [List.append_assoc, List.cons_append, List.nil_append]
  rw [htext, userAtHost_append (ne_of_user huser) hne]
  cases hhost : acceptedName text ++ portText (givenPort text) with
  | cons c host =>
    have hchars := host_chars (stable_acceptedName text) (isPort_givenPort text)
    rw [hhost] at hchars
    refine iff_of_true ⟨c, _, rfl, (hchars c List.mem_cons_self).2, ?_⟩ ?_
    · rintro rfl
      exact absurd (hchars slash List.mem_cons_self).1 (by decide)
    · rintro ⟨hnone, moved, hdrops, -⟩
      rw [(host_nil_iff text).mpr ⟨hnone, moved, hdrops⟩] at hhost
      cases hhost
  | nil =>
    obtain ⟨hnone, moved, hdrops⟩ := (host_nil_iff text).mp hhost
    rw [List.nil_append, head_rooted_iff, tail_of_drops hdrops]
    constructor
    · rintro ⟨c, hc, hmark⟩ ⟨-, moved', hdrops', hhead⟩
      rw [← tail_of_drops hdrops', tail_of_drops hdrops] at hhead
      obtain ⟨hquestion, hhash⟩ := hhead c hc
      exact hmark.elim hquestion hhash
    · intro h
      by_contra hmark
      refine h ⟨hnone, moved, hdrops, fun c hc => ?_⟩
      exact not_or.mp fun hc' => hmark ⟨c, hc, hc'⟩

theorem hasSlashes_none (rest : JSString) :
    hasSlashes false none rest = true ↔ userAtHost rest = true := by
  rw [hasSlashes_iff]
  constructor
  · rintro ⟨hwhy, -, -⟩
    simpa using hwhy
  · intro h
    obtain ⟨user, c, more, rfl, -⟩ := userAtHost_some h
    exact ⟨.inr (.inr h), rfl, rfl⟩

theorem userAtHost_of_tidy {rest : JSString} (h : userAtHost (tidy rest) = true) :
    userAtHost rest = true := by
  obtain ⟨user, c, more, htidy, hne, huser, hat, hslash⟩ := userAtHost_some h
  obtain ⟨z, rfl, hz⟩ := @tidy_eq_append [slash, slash] (by decide) _ _ htidy
  obtain ⟨user₀, z₀, rfl, rfl, hmore, hmem⟩ := tidy_eq_split (by decide) (by decide) hz.symm
  have hne₀ : user₀ ≠ [] := by
    rintro rfl
    exact hne tidy_nil
  have huser₀ : ∀ d ∈ user₀, d ≠ atSign ∧ d ≠ slash := by
    intro d hd
    rcases hmem d hd with rfl | hd
    · decide
    · exact huser d hd
  refine (userAtHost_append huser₀ hne₀ z₀).mpr ?_
  cases z₀ with
  | nil => cases hmore.trans tidy_nil
  | cons d z₀ =>
    refine ⟨d, z₀, rfl, ?_⟩
    rw [tidy_cons] at hmore
    split_ifs at hmore with hquote hdelim
    · rw [hquote]
      decide
    · obtain ⟨rfl, -⟩ := List.cons_eq_cons.mp hmore
      exact ⟨hat, hslash⟩

theorem bodyText_none {rest : JSString} (h : userAtHost rest ≠ true) :
    bodyText none rest = tidy rest := by
  unfold bodyText
  rw [if_neg (mt (hasSlashes_none rest).mp h)]
  rfl

theorem tidy_eq_iff (s : JSString) : tidy s = s ↔ Safe s :=
  ⟨fun h => h ▸ safe_tidy s, tidy_safe⟩

/-- Of a user only an apostrophe does not stay. -/
theorem safe_user_iff {user : JSString} (h : ∀ c ∈ user, nonAuthChars.contains c = false) :
    Safe user ↔ apostrophe ∉ user := by
  constructor
  · exact fun hsafe hmem => (hsafe apostrophe hmem).2 rfl
  · intro hquote c hc
    refine ⟨Bool.eq_false_iff.mpr fun hmem => ?_, fun heq => hquote (heq ▸ hc)⟩
    have hauth : nonAuthChars.contains c = true :=
      List.contains_iff_mem.mpr (List.mem_append_right _ (List.contains_iff_mem.mp hmem))
    rw [h c hc] at hauth
    cases hauth

theorem none_fixed_iff (rest : JSString) :
    bodyText none (bodyText none rest) = bodyText none rest ↔ ¬ LosesHost rest := by
  by_cases hhost : userAtHost rest = true
  · have hbody : bodyText none rest = slash :: slash :: ((hostStage (rest.drop 2)).1.host ++
        rooted false (tidy (hostStage (rest.drop 2)).2)) :=
      bodyText_slashes ((hasSlashes_none rest).mpr hhost)
    have hsafe : Safe (bodyText none rest) ↔ Safe ((pluckAuth (rest.drop 2)).1.getD []) := by
      have hslashes : Safe [slash, slash] := by decide
      have hrooted := safe_rooted false (safe_tidy (hostStage (rest.drop 2)).2)
      rw [hbody, ← safe_hostStage]
      exact (@safe_append [slash, slash] _).trans
        ((and_iff_right hslashes).trans (safe_append.trans (and_iff_left hrooted)))
    have hfixed : bodyText none (bodyText none rest) = bodyText none rest ↔
        userAtHost (bodyText none rest) = true ∨ Safe (bodyText none rest) := by
      by_cases hagain : userAtHost (bodyText none rest) = true
      · exact iff_of_true (bodyText_fixed ((hasSlashes_none _).mpr hhost)
          ((hasSlashes_none _).mpr hagain)) (.inl hagain)
      · rw [bodyText_none hagain, tidy_eq_iff]
        exact (or_iff_right hagain).symm
    rw [hfixed, hsafe]
    rcases authText_cases (rest.drop 2) with ⟨hfalsy, -⟩ | ⟨user, hsome, hne, huser, -⟩
    · refine iff_of_true (.inr ?_) ?_
      · rw [← safe_truthy, hfalsy]
        exact safe_nil
      · rintro ⟨-, user, moved, hsome, hquote, -⟩
        rw [hsome, truthy_some (List.ne_nil_of_mem hquote)] at hfalsy
        cases hfalsy
    · rw [hbody, userAtHost_again hsome hne, hsome, Option.getD_some, safe_user_iff huser]
      constructor
      · rintro h ⟨-, user', moved, hsome', hquote, hnone, hdrops, hhead⟩
        obtain rfl := Option.some.inj (hsome'.symm.trans hsome)
        exact h.elim (fun h => h ⟨hnone, moved, hdrops, hhead⟩) fun h => h hquote
      · intro h
        by_contra hnot
        obtain ⟨hagain, hquote⟩ := not_or.mp hnot
        obtain ⟨hnone, moved, hdrops, hhead⟩ := not_not.mp hagain
        exact h ⟨hhost, user, moved, hsome, not_not.mp hquote, hnone, hdrops, hhead⟩
  · have hagain : userAtHost (tidy rest) ≠ true := mt userAtHost_of_tidy hhost
    rw [bodyText_none hhost, bodyText_none hagain, tidy_safe (safe_tidy rest)]
    exact iff_of_true rfl fun h => hhost h.1

/-- The `href` of a URL with its scheme in small letters, or none, is its own `href` unless it comes
to be read as another host. -/
theorem href_fixed_iff (Q : QueryString) {url : JSString}
    (hlower : (schemeOf url).map toLowerCase = schemeOf url) :
    (urlParse Q (urlParse Q url false false).href false false).href =
      (urlParse Q url false false).href ↔ Rereads url := by
  have hhref := href_eq Q hlower
  unfold Rereads
  cases hscheme : schemeOf url with
  | none =>
    have hafter : afterScheme url = url.dropWhile delims.contains := by
      rw [afterScheme, hscheme]
      rfl
    have hnone : protocolPattern (afterScheme url) = none := by rwa [hafter]
    rw [hscheme, Option.getD_none, List.nil_append] at hhref
    obtain ⟨hreread, hrest⟩ : schemeOf (bodyText none (afterScheme url)) = none ∧
        afterScheme (bodyText none (afterScheme url)) = bodyText none (afterScheme url) := by
      by_cases hhost : userAtHost (afterScheme url) = true
      · rw [bodyText_slashes ((hasSlashes_none _).mpr hhost)]
        exact scheme_slash _
      · rw [bodyText_none hhost]
        exact scheme_tidy hnone
    have hagain := @href_eq Q (bodyText none (afterScheme url)) (by rw [hreread]; rfl)
    rw [hreread, hrest, Option.getD_none, List.nil_append] at hagain
    rw [hhref, hagain]
    exact none_fixed_iff (afterScheme url)
  | some proto =>
    have hproto := isProto_schemeOf hscheme
    rw [hscheme] at hhref hlower
    rw [Option.getD_some] at hhref
    obtain ⟨hreread, hrest⟩ := scheme_append hproto (bodyText (some proto) (afterScheme url))
    have hagain := @href_eq Q (proto ++ bodyText (some proto) (afterScheme url))
      (by rw [hreread]; exact hlower)
    rw [hreread, hrest, Option.getD_some] at hagain
    rw [hhref, hagain, List.append_cancel_left_eq]
    dsimp only
    cases hhostless : has hostlessProtocol (some proto) with
    | true =>
      have hsame : ∀ rest, bodyText (some proto) rest = rest := by
        intro rest
        have hslashes : hasSlashes false (some proto) rest ≠ true := fun h =>
          absurd (hasSlashes_iff.mp h).2.2 (by rw [hhostless]; decide)
        unfold bodyText
        rw [if_neg hslashes, hhostless]
        simp
      exact iff_of_true (hsame _) (.inl rfl)
    | false =>
      by_cases hslashes : (afterScheme url).take 2 = [slash, slash]
      · have hread : ∀ rest, rest.take 2 = [slash, slash] →
            hasSlashes false (some proto) rest = true := fun rest hrest =>
          hasSlashes_iff.mpr ⟨.inr (.inl rfl), hrest, hhostless⟩
        refine iff_of_true (bodyText_fixed (hread _ hslashes) (hread _ ?_))
          (.inr (.inr (.inl hslashes)))
        rw [bodyText_slashes (hread _ hslashes)]
        rfl
      · cases hslashed : has slashedProtocol (some proto) with
        | false =>
          rw [hosted_fixed_iff hhostless hslashed hslashes]
          simp [hslashes]
        | true =>
          have hplain : ∀ rest : JSString, rest.take 2 ≠ [slash, slash] →
              bodyText (some proto) rest = tidy rest := by
            intro rest hrest
            unfold bodyText
            rw [if_neg fun h => hrest (hasSlashes_iff.mp h).2.1, hhostless, hslashed]
            rfl
          have htidy : (tidy (afterScheme url)).take 2 ≠ [slash, slash] := by
            intro htwo
            obtain ⟨z, hz⟩ := take_two_iff.mp htwo
            obtain ⟨z₀, hrest, -⟩ := @tidy_eq_append [slash, slash] (by decide) _ _ hz
            exact hslashes (take_two_iff.mpr ⟨z₀, hrest⟩)
          refine iff_of_true ?_ (.inr (.inl rfl))
          rw [hplain _ hslashes, hplain _ htidy, tidy_safe (safe_tidy _)]

/-- `foo:@b;@C'd` -/
theorem href_fixed_iff_foo :
    (urlParse noQuery (urlParse noQuery (js "foo:@b;@C'd") false false).href false false).href =
      (urlParse noQuery (js "foo:@b;@C'd") false false).href ↔ Rereads (js "foo:@b;@C'd") :=
  href_fixed_iff noQuery (by decide +kernel)

/-- Of `foo:@//A` the path is read as a host, whose letters are small. -/
theorem href_not_fixed : ¬ ∀ url : JSString, (schemeOf url).map toLowerCase = schemeOf url →
    (urlParse noQuery (urlParse noQuery url false false).href false false).href =
      (urlParse noQuery url false false).href := by
  intro h
  have hfixed := h (js "foo:@//A") (by decide +kernel)
  have hfirst : (urlParse noQuery (js "foo:@//A") false false).href = js "foo://A" := by
    decide +kernel
  have hsecond : (urlParse noQuery (js "foo://A") false false).href = js "foo://a" := by
    decide +kernel
  rw [hfirst, hsecond] at hfixed
  exact absurd hfixed (by decide)

end NodeJS.Url
