import NodeJS.Url.DotHandling
import NodeJS.Url.Fixed

/-! `url.resolve` of a reference that is nothing but a path. -/
namespace NodeJS.Url
open NodeJS.Path (join)

-- unfolded, these run through the strings of delimiters
attribute [local irreducible] firstNonHost chop

section
variable {Q : QueryString}

/-- The URL of an http resource at a host. -/
structure HttpBase (base : Parsed Q) : Prop where
  protocol : base.protocol = some (js "http:")
  hostname : ∃ name, base.hostname = some name ∧ name ≠ []

structure PathOnly (ref : Parsed Q) (path : JSString) : Prop where
  protocol : ref.protocol = none
  host : ref.host = none
  search : ref.search = none
  hash : ref.hash = none
  pathname : ref.pathname = some path

/-- The path of a base, which has its slash in front of it if it is not empty. -/
def basePath (base : Parsed Q) : JSString := startWith slash (base.pathname.getD [])

/-! ### The reference -/

theorem urlFormatString_eq (url : JSString) :
    urlFormatString Q url = (urlParse Q url false false).href := rfl

/-- The parse of a text that has neither a scheme nor slashes in front. -/
theorem urlParse_plain {url : JSString} (hscheme : schemeOf url = none)
    (htwo : (afterScheme url).take 2 ≠ [slash, slash]) (slashesDenoteHost : Bool) :
    urlParse Q url false slashesDenoteHost =
      assemble none false none (tailStage Q false (tidy (afterScheme url))) := by
  have hslashes : hasSlashes slashesDenoteHost none (afterScheme url) = false :=
    Bool.eq_false_iff.mpr fun h => htwo (hasSlashes_iff.mp h).2.1
  have htext : hostText slashesDenoteHost none (afterScheme url) = none := by
    rw [hostText, hslashes]
    rfl
  rw [urlParse_eq, hscheme]
  dsimp only
  rw [htext, hslashes]
  rfl

/-- Formatting and parsing a path again changes nothing more. -/
theorem relative_eq {ref path : JSString} (h : PathOnly (urlParse Q ref false true) path) :
    urlParse Q (urlFormatString Q ref) false true = urlParse Q ref false true ∧
      urlParse Q ref false true =
        assemble none false none (tailStage Q false (tidy (afterScheme ref))) ∧
      (urlParse Q ref false true).href = tidy (afterScheme ref) := by
  have hparse := urlParse_eq Q ref false true
  have hscheme : schemeOf ref = none := by
    have hprotocol := h.protocol
    rw [hparse] at hprotocol
    exact Option.map_eq_none_iff.mp hprotocol
  have htwo : (afterScheme ref).take 2 ≠ [slash, slash] := by
    intro htwo
    have hslashes : hasSlashes true none (afterScheme ref) = true :=
      hasSlashes_iff.mpr ⟨.inl rfl, htwo, rfl⟩
    have hhost := h.host
    rw [hparse, hscheme] at hhost
    dsimp only at hhost
    rw [hostText, if_pos hslashes] at hhost
    cases hhost
  have hnone : protocolPattern (afterScheme ref) = none := by
    rw [afterScheme, hscheme]
    exact hscheme
  have hplain := urlParse_plain (Q := Q) hscheme htwo
  have hhref : (urlParse Q ref false false).href = tidy (afterScheme ref) := by
    rw [href_eq Q (by rw [hscheme]; rfl), hscheme, Option.getD_none, List.nil_append]
    refine bodyText_none fun hhost => htwo ?_
    exact (hasSlashes_iff.mp ((hasSlashes_none _).mpr hhost)).2.1
  obtain ⟨hscheme', hafter⟩ := scheme_tidy hnone
  have htwo' : (afterScheme (tidy (afterScheme ref))).take 2 ≠ [slash, slash] := by
    rw [hafter]
    intro htidy
    obtain ⟨z, hz⟩ := take_two_iff.mp htidy
    obtain ⟨z₀, hrest, -⟩ := @tidy_eq_append [slash, slash] (by decide) _ _ hz
    exact htwo (take_two_iff.mpr ⟨z₀, hrest⟩)
  refine ⟨?_, hplain true, ?_⟩
  · rw [urlFormatString_eq, hhref, urlParse_plain hscheme' htwo', hafter,
      tidy_safe (safe_tidy _), hplain]
  · rw [hplain true, ← hplain false, hhref]

/-! ### The base -/

def pathPart (rest : JSString) : JSString :=
  rest.takeWhile fun c => c != questionMark && c != hashMark

theorem pathname_pathPart (rest : JSString) : (tailStage Q false rest).pathname = pathPart rest :=
  pathname_tailStage false rest

theorem pathPart_slash (rest : JSString) : pathPart (slash :: rest) = slash :: pathPart rest :=
  List.takeWhile_cons_of_pos (by decide)

theorem pathPart_rooted (pathed : Bool) (rest : JSString) :
    pathPart (rooted pathed rest) = startWith slash
      (if pathPart rest ≠ [] then pathPart rest else if pathed then [slash] else []) := by
  cases rest with
  | nil => cases pathed <;> rfl
  | cons c rest =>
    rw [rooted]
    by_cases hc : c = questionMark ∨ c = hashMark
    · have hslash : c ≠ slash := by
        rcases hc with rfl | rfl <;> decide
      have hnil : pathPart (c :: rest) = [] := by
        rw [pathPart, List.takeWhile_cons_of_neg]
        rcases hc with rfl | rfl <;> decide
      cases pathed with
      | false =>
        rw [if_pos (.inr ⟨rfl, hc⟩), hnil]
        rfl
      | true =>
        rw [if_neg (by simp [hslash]), pathPart_slash, hnil]
        rfl
    · obtain ⟨hquestion, hhash⟩ := not_or.mp hc
      have hcons : pathPart (c :: rest) = c :: pathPart rest :=
        List.takeWhile_cons_of_pos (by simp [hquestion, hhash])
      rw [if_pos (by simp [hcons] : pathPart (c :: rest) ≠ [])]
      by_cases hslash : c = slash
      · rw [if_pos (.inl hslash), hcons, startWith, if_neg (by simp [hslash])]
      · rw [if_neg (by simp [hslash, hquestion, hhash]), pathPart_slash, hcons, startWith,
          if_pos (by simp [hslash])]

/-- What `urlResolveObject` reads in an http base. -/
theorem source_eq {base : JSString} (h : HttpBase (urlParse Q base false false)) :
    ∃ text rest, urlFormatString Q base =
        js "http:" ++ (slash :: slash :: ((hostStage text).1.host ++ rest)) ∧
      (hostStage text).1.hostname ≠ [] ∧ Rooted rest ∧ Safe rest ∧
      pathPart rest = basePath (urlParse Q base false false) := by
  obtain ⟨name, hname, hne⟩ := h.hostname
  have hprotocol := h.protocol
  have hhref := urlFormatString_eq (Q := Q) base
  have hlast : ∀ p ∈ schemeOf base, p.getLast? = some colon := fun p hp => getLast_proto hp
  unfold basePath
  rw [urlParse_eq] at hprotocol hname hhref ⊢
  dsimp only at hprotocol hname hhref ⊢
  rw [href_assemble hlast] at hhref
  generalize schemeOf base = proto at hprotocol hname hhref ⊢
  generalize afterScheme base = rest at hname hhref ⊢
  have hlower : proto.map toLowerCase = some (js "http:") := hprotocol
  have hunsafe : has unsafeProtocol (some (js "http:")) = false := by decide +kernel
  have hslashed : has slashedProtocol (some (js "http:")) = true := by decide +kernel
  cases htext : hostText false proto rest with
  | none =>
    rw [htext] at hname
    cases hname
  | some text =>
    rw [htext] at hname hhref
    have hname' : (hostStage text).1.hostname = name := Option.some.inj hname
    have htail : tailText proto (hostStage text).2 = tidy (hostStage text).2 := by
      rw [tailText, hlower, hunsafe]
      rfl
    refine ⟨text, rooted (has slashedProtocol proto && (truthy (some name)).isSome)
      (tidy (hostStage text).2), ?_, by rw [hname']; exact hne, rooted_spec _ _,
      safe_rooted _ (safe_tidy _), ?_⟩
    · rw [hhref]
      simp [writesSlashes, hlower, hslashed, hname', htail]
    · rw [pathPart_rooted, Option.elim_some, htail, ← hname']
      unfold assemble
      dsimp only
      rw [pathname_pathPart]
      by_cases hpath : pathPart (tidy (hostStage text).2) ≠ []
      · rw [if_pos hpath, if_pos hpath]
        rfl
      · rw [if_neg hpath, if_neg hpath]
        simp only [Option.map_some]
        split_ifs <;> rfl

/-- The parse of an http URL that is put together from its host and the rest. -/
theorem urlParse_http (text : JSString) {rest : JSString} (hrest : Rooted rest) (hsafe : Safe rest)
    (slashesDenoteHost : Bool) :
    ∃ host : Host, host.host = (hostStage text).1.host ∧
      host.hostname = (hostStage text).1.hostname ∧
      urlParse Q (js "http:" ++ (slash :: slash :: ((hostStage text).1.host ++ rest))) false
        slashesDenoteHost =
          assemble (some (js "http:")) true (some host) (tailStage Q false rest) := by
  have hproto : IsProto (js "http:") := ⟨js "http", rfl, by decide, by decide⟩
  have hhostless : has hostlessProtocol (some (js "http:")) = false := by decide +kernel
  have hunsafe : has unsafeProtocol ((some (js "http:")).map toLowerCase) = false := by
    decide +kernel
  obtain ⟨hhost, hname, htail⟩ := hostStage_again text hrest.isTail (pluckAuth_rooted hrest)
  obtain ⟨hscheme, hafter⟩ := scheme_append hproto
    (slash :: slash :: ((hostStage text).1.host ++ rest))
  have hslashes : hasSlashes slashesDenoteHost (some (js "http:"))
      (slash :: slash :: ((hostStage text).1.host ++ rest)) = true :=
    hasSlashes_iff.mpr ⟨.inr (.inl rfl), rfl, hhostless⟩
  have htext : hostText slashesDenoteHost (some (js "http:"))
      (slash :: slash :: ((hostStage text).1.host ++ rest)) =
        some ((hostStage text).1.host ++ rest) := if_pos hslashes
  refine ⟨(hostStage ((hostStage text).1.host ++ rest)).1, hhost, hname, ?_⟩
  rw [urlParse_eq, hscheme, hafter]
  dsimp only
  rw [htext, hslashes, Option.elim_some, htail, tailText, hunsafe]
  have htidy : chop (escapeRest rest) = rest := tidy_safe hsafe
  rw [if_neg Bool.false_ne_true, htidy]
  rfl

/-! ### The path -/

def segmentsOf (path : JSString) : List JSString := (path.splitOn slash).tail

theorem splitOn_slash (path : JSString) :
    (slash :: path).splitOn slash = [] :: path.splitOn slash := List.splitOn_append_cons_self [] path

theorem segments_spec {path : JSString} (h : path.head? = some slash) :
    path.splitOn slash = [] :: segmentsOf path ∧ segmentsOf path ≠ [] ∧
      pathOf (segmentsOf path) = path ∧ ∀ s ∈ segmentsOf path, slash ∉ s := by
  obtain ⟨rest, rfl⟩ := List.head?_eq_some_iff.mp h
  have hsegments : segmentsOf (slash :: rest) = rest.splitOn slash := by
    rw [segmentsOf, splitOn_slash, List.tail_cons]
  have hne : rest.splitOn slash ≠ [] := List.splitOn_ne_nil slash rest
  rw [hsegments, splitOn_slash, pathOf_eq hne, List.intercalate_splitOn]
  exact ⟨rfl, hne, rfl, Path.slash_not_mem_splitOn rest⟩

/-- What stands up to the last slash of the base stays. -/
theorem merge_eq {path : JSString} (h : slash ∈ path) :
    ∃ front last, path = front ++ slash :: last ∧ slash ∉ last ∧
      ∀ refPath, merge path refPath = front ++ slash :: refPath := by
  have hsplit : path.rdropWhile (· != slash) ++ path.rtakeWhile (· != slash) = path :=
    List.rdropWhile_append_rtakeWhile
  have hlast : slash ∉ path.rtakeWhile (· != slash) := fun hmem =>
    absurd (List.mem_rtakeWhile_imp hmem) (by decide)
  have hne : path.rdropWhile (· != slash) ≠ [] := by
    intro hnil
    rw [hnil, List.nil_append] at hsplit
    rw [hsplit] at hlast
    exact hlast h
  have hslash : (path.rdropWhile (· != slash)).getLast hne = slash := by
    simpa using List.rdropWhile_last_not _ _ hne
  have hfront := List.dropLast_append_getLast hne
  rw [hslash] at hfront
  refine ⟨(path.rdropWhile (· != slash)).dropLast, path.rtakeWhile (· != slash), ?_, hlast,
    fun refPath => ?_⟩
  · rw [← List.singleton_append, ← List.append_assoc, hfront, hsplit]
  · rw [merge, if_neg (List.ne_nil_of_mem h), ← List.singleton_append, ← List.append_assoc, hfront]

/-- All but the last part of the base, and the parts of the reference. -/
theorem splitOn_merge {path : JSString} (h : slash ∈ path) (refPath : JSString) :
    (merge path refPath).splitOn slash =
      (path.splitOn slash).dropLast ++ refPath.splitOn slash := by
  obtain ⟨front, last, hpath, hlast, hmerge⟩ := merge_eq h
  rw [hmerge, hpath, List.splitOn_append_cons_self, List.splitOn_append_cons_self,
    List.splitOn_eq_singleton hlast, List.dropLast_concat]

theorem head_mergedPath {path : JSString} (h : path.head? = some slash) (refPath : JSString) :
    (mergedPath path refPath).head? = some slash := by
  unfold mergedPath
  split_ifs with href
  · exact href
  · obtain ⟨front, last, hpath, -, hmerge⟩ := merge_eq (List.mem_of_head? h)
    rw [hmerge]
    cases front with
    | nil => rfl
    | cons c front =>
      rw [hpath] at h
      exact h

theorem resolveParts_path {source relative : Parsed Q} {host path refPath : JSString}
    (hprotocol : source.protocol = some (js "http:")) (hhost : source.host = some host)
    (hne : host ≠ []) (hpathname : source.pathname = some path) (hpath : path.head? = some slash)
    (href : PathOnly relative refPath) (hrefPath : refPath ≠ []) :
    resolveParts source relative =
      { source with
        search := relative.search
        query := relative.query
        pathname := some (handledPath (segmentsOf (mergedPath path refPath))) } := by
  have hslashed : has slashedProtocol (some (js "http:")) = true := by decide +kernel
  have hmem : slash ∈ path := List.mem_of_head? hpath
  have hpathne : path ≠ [] := List.ne_nil_of_mem hmem
  have hsource : isAbs source.pathname = true := by
    rw [hpathname, isAbs, truthy_some hpathne, Option.any_some, hpath]
    decide
  have hsplit : splitPathname source.pathname = path.splitOn slash := by
    rw [hpathname, splitPathname, truthy_some hpathne]
    rfl
  have hrefsplit : splitPathname relative.pathname = refPath.splitOn slash := by
    rw [href.pathname, splitPathname, truthy_some hrefPath]
    rfl
  have hparts : refPath.splitOn slash ≠ [] := List.splitOn_ne_nil slash refPath
  -- the parts that are put together
  obtain ⟨hsegments, hsegne, -, hslash⟩ := segments_spec (head_mergedPath hpath refPath)
  have hresolve : ∀ source' : Parsed Q, source'.host = some host →
      resolvePath source' relative ([] :: segmentsOf (mergedPath path refPath)) true true false =
        { source' with
          pathname := some (handledPath (segmentsOf (mergedPath path refPath))) } := by
    intro source' hsource'
    have hlast : ([] :: segmentsOf (mergedPath path refPath)).getLast? =
        (segmentsOf (mergedPath path refPath)).getLast? := List.getLast?_cons_of_ne_nil hsegne
    have hends : (((truthy source'.host).isSome || (truthy relative.host).isSome) &&
        ((segmentsOf (mergedPath path refPath)).getLast? == some (js ".") ||
          (segmentsOf (mergedPath path refPath)).getLast? == some (js "..")) ||
        (segmentsOf (mergedPath path refPath)).getLast? == some []) =
          endsInSlash (segmentsOf (mergedPath path refPath)) := by
      rw [hsource', truthy_some hne, Bool.eq_iff_iff, endsInSlash, decide_eq_true_eq]
      simp [EndsInDots]
    unfold resolvePath
    rw [if_neg (List.cons_ne_nil _ _), hlast]
    dsimp only
    rw [hends, (join_resolveDots hslash _).2]
    simp [handledPath]
  unfold resolveParts
  dsimp only
  simp only [hsource, hsplit, hrefsplit, href.host, hprotocol, hslashed, Bool.not_true,
    Bool.and_false, Bool.false_and, Bool.or_true, Bool.true_or, Bool.false_eq_true, if_false,
    Option.isSome_none, Bool.false_or, Option.none_or]
  have hisAbs : isAbs relative.pathname = decide (refPath.head? = some slash) := by
    rw [href.pathname, isAbs, truthy_some hrefPath, Option.any_some]
  rw [hisAbs]
  by_cases habs : refPath.head? = some slash
  · have hmerged : refPath.splitOn slash = [] :: segmentsOf (mergedPath path refPath) := by
      rw [← hsegments, mergedPath, if_pos habs]
    rw [if_pos (decide_eq_true habs), hmerged]
    exact hresolve _ hhost
  · have hmerged : (path.splitOn slash).dropLast ++ refPath.splitOn slash =
        [] :: segmentsOf (mergedPath path refPath) := by
      rw [← hsegments, mergedPath, if_neg habs, splitOn_merge hmem]
    rw [if_neg (by simpa using habs), if_pos hparts, hmerged]
    exact hresolve _ hhost

/-! ### The path of the resolved URL -/

/-- The characters of a path, which stay when it is parsed again. -/
def IsPath (path : JSString) : Prop := ∀ c ∈ path, isPathChar c = true ∧ c ≠ apostrophe

instance (path : JSString) : Decidable (IsPath path) :=
  inferInstanceAs (Decidable (∀ c ∈ path, _))

theorem isPath_pathPart {rest : JSString} (h : Safe rest) : IsPath (pathPart rest) := by
  intro c hc
  obtain ⟨hdelim, hquote⟩ := h c ((List.takeWhile_prefix _).mem hc)
  have hmark := List.mem_takeWhile_imp hc
  refine ⟨?_, hquote⟩
  rw [isPathChar, hdelim, hmark]
  rfl

theorem IsPath.safe {path : JSString} (h : IsPath path) : Safe path := by
  intro c hc
  obtain ⟨hpath, hquote⟩ := h c hc
  exact ⟨by simpa using ((Bool.and_eq_true _ _).mp hpath).1, hquote⟩

theorem IsPath.pathPart {path : JSString} (h : IsPath path) : pathPart path = path := by
  refine List.takeWhile_eq_self_iff.mpr fun c hc => ?_
  exact ((Bool.and_eq_true _ _).mp (h c hc).1).2

theorem isPath_pathOf {segments : List JSString} (h : ∀ s ∈ segments, IsPath s) :
    IsPath (pathOf segments) := by
  intro c hc
  obtain ⟨s, hs, hc⟩ := List.mem_flatMap.mp hc
  rcases List.mem_cons.mp hc with rfl | hc
  · decide
  · exact h s hs c hc

theorem isPath_segmentsOf {path : JSString} (hpath : path.head? = some slash) (h : IsPath path) :
    ∀ s ∈ segmentsOf path, IsPath s := by
  intro s hs c hc
  obtain ⟨-, -, heq, -⟩ := segments_spec hpath
  refine h c ?_
  rw [← heq]
  exact List.mem_flatMap.mpr ⟨s, hs, List.mem_cons_of_mem _ hc⟩

/-- What is left has a last segment. -/
theorem rooted_ne_nil {segments : List JSString} (hne : segments ≠ [])
    (h : ¬ (EndsInDots segments ∨ segments.getLast? = some [])) : rootedSegments segments ≠ [] := by
  obtain ⟨hdots, hempty⟩ := not_or.mp h
  obtain ⟨s, hlast⟩ : ∃ s, segments.getLast? = some s := ⟨_, List.getLast?_eq_some_getLast hne⟩
  have hkept := getLast_normal hlast hdots
  rw [hlast] at hempty
  unfold rootedSegments
  split_ifs with hroot
  · obtain ⟨more, hmore⟩ := List.head?_eq_some_iff.mp hroot.2
    rw [hmore] at hkept ⊢
    rintro rfl
    exact hempty hkept.symm
  · rintro hnil
    rw [hnil] at hkept
    cases hkept

/-- The path that is left begins with a slash and has no new characters. -/
theorem handledPath_spec {segments : List JSString} (hslash : ∀ s ∈ segments, slash ∉ s)
    (hne : segments ≠ []) (h : ∀ s ∈ segments, IsPath s) :
    IsPath (handledPath segments) ∧ (handledPath segments).head? = some slash := by
  have hrooted : ∀ s ∈ rootedSegments segments, IsPath s := by
    intro s hs
    refine h s (mem_of_mem_normal s ?_)
    unfold rootedSegments at hs
    split_ifs at hs
    · exact List.mem_of_mem_tail hs
    · exact hs
  rw [handledPath_eq hslash]
  constructor
  · refine isPath_pathOf (List.forall_mem_append.mpr ⟨hrooted, ?_⟩)
    split_ifs
    · exact List.forall_mem_singleton.mpr nofun
    · exact nofun
  · by_cases hends : EndsInDots segments ∨ segments.getLast? = some []
    · cases hsegments : rootedSegments segments with
      | nil =>
        rw [if_pos ⟨hends, nofun⟩]
        rfl
      | cons s more => rfl
    · obtain ⟨s, more, hmore⟩ := List.exists_cons_of_ne_nil (rooted_ne_nil hne hends)
      rw [hmore]
      rfl

theorem pathname_assemble {proto : Option JSString} {slashes : Bool} {host : Option Host}
    {rest : JSString} (h : pathPart rest ≠ []) :
    (assemble proto slashes host (tailStage Q false rest)).pathname = some (pathPart rest) := by
  unfold assemble
  dsimp only
  rw [pathname_pathPart, if_pos h]

theorem urlFormat_http {obj : Parsed Q} {host path : JSString}
    (hprotocol : obj.protocol = some (js "http:")) (hslashes : obj.slashes = true)
    (hhost : obj.host = some host) (hpathname : obj.pathname = some path)
    (hpath : path.head? = some slash) (hsearch : obj.search = none) (hhash : obj.hash = none)
    (hquery : formatQuery obj.query = []) :
    urlFormat obj = js "http:" ++ (slash :: slash :: (host ++ path)) := by
  have hstart : startWith slash path = path := if_neg fun h => h.2 hpath
  have hcolon : ¬ (js "http:" ≠ [] ∧ (js "http:").getLast? ≠ some colon) := by decide +kernel
  unfold urlFormat
  simp only [hprotocol, hslashes, hhost, hpathname, hsearch, hhash, hquery, Option.getD_some,
    Option.some_or, hcolon, if_false, Bool.true_or, if_true, hstart]
  simp [truthy, startWith]

/-- What a reference has that is nothing but a path. -/
theorem refPath_spec {ref refPath : JSString} (h : PathOnly (urlParse Q ref false true) refPath) :
    refPath ≠ [] ∧ IsPath refPath ∧ (urlParse Q ref false true).href ≠ [] ∧
      (urlParse Q ref false true).slashes = false ∧
      formatQuery (urlParse Q ref false true).query = [] := by
  obtain ⟨-, hrel, hhref⟩ := relative_eq h
  have hpathname := h.pathname
  have hsearch := h.search
  rw [hhref]
  rw [hrel] at hpathname hsearch ⊢
  have hne : pathPart (tidy (afterScheme ref)) ≠ [] := by
    intro hnil
    have hnone : has slashedProtocol none = false := rfl
    unfold assemble at hpathname
    dsimp only at hpathname
    rw [pathname_pathPart, hnil, if_neg (not_not.mpr rfl), hnone] at hpathname
    cases hpathname
  rw [pathname_assemble hne] at hpathname
  obtain rfl := Option.some.inj hpathname
  refine ⟨hne, isPath_pathPart (safe_tidy _), fun hnil => hne (by rw [hnil]; rfl), rfl, ?_⟩
  refine query_tailStage false _ ?_
  have hnone : (tailStage Q false (tidy (afterScheme ref))).search = none := hsearch
  rw [hnone]
  rfl

/-- What `urlResolveObject` has of an http base; the path is at least a slash. -/
structure SourceOf (base source : Parsed Q) (text path : JSString) : Prop where
  protocol : source.protocol = some (js "http:")
  slashes : source.slashes = true
  host : source.host = some (hostStage text).1.host
  host_ne : (hostStage text).1.host ≠ []
  pathname : source.pathname = some path
  head : path.head? = some slash
  isPath : IsPath path
  merged : ∀ refPath, mergedPath (basePath base) refPath = mergedPath path refPath

theorem source_spec {base : JSString} (h : HttpBase (urlParse Q base false false)) :
    ∃ text path, SourceOf (urlParse Q base false false)
      (urlParse Q (urlFormatString Q base) false true) text path := by
  obtain ⟨text, rest, hformat, hname, hrooted, hsafe, hbasePath⟩ := source_eq h
  obtain ⟨host, hhost, hhostname, hsource⟩ := @urlParse_http Q text rest hrooted hsafe true
  have hhostNe : (hostStage text).1.host ≠ [] := by
    rw [hostStage_eq text] at hname ⊢
    simp [hname]
  rw [← hformat] at hsource
  by_cases hnil : pathPart rest = []
  · refine ⟨text, [slash], ?_⟩
    have hpathname : (urlParse Q (urlFormatString Q base) false true).pathname = some [slash] := by
      have hslashed : has slashedProtocol (some (js "http:")) = true := by decide +kernel
      rw [hsource]
      unfold assemble
      dsimp only
      rw [pathname_pathPart, hnil, if_neg (not_not.mpr rfl), hslashed, Option.map_some,
        isSome_truthy, hhostname, decide_eq_true hname]
      rfl
    refine ⟨by rw [hsource]; rfl, by rw [hsource]; rfl, ?_, hhostNe, hpathname, rfl, by decide, ?_⟩
    · rw [hsource, ← hhost]
      rfl
    · intro refPath
      rw [← hbasePath, hnil]
      rfl
  · refine ⟨text, pathPart rest, by rw [hsource]; rfl, by rw [hsource]; rfl, ?_, hhostNe, ?_, ?_,
      isPath_pathPart hsafe, fun refPath => by rw [hbasePath]⟩
    · rw [hsource, ← hhost]
      rfl
    · rw [hsource, pathname_assemble hnil]
    · cases rest with
      | nil => exact absurd rfl hnil
      | cons c rest =>
        rcases hrooted c rfl with rfl | rfl | rfl
        · rfl
        · exact absurd rfl hnil
        · exact absurd rfl hnil

theorem isPath_mergedPath {path refPath : JSString} (hslash : slash ∈ path) (hpath : IsPath path)
    (href : IsPath refPath) : IsPath (mergedPath path refPath) := by
  unfold mergedPath
  split_ifs
  · exact href
  · obtain ⟨front, last, heq, -, hmerge⟩ := merge_eq hslash
    rw [hmerge]
    intro c hc
    rcases List.mem_append.mp hc with hc | hc
    · exact hpath c (by rw [heq]; exact List.mem_append_left _ hc)
    · rcases List.mem_cons.mp hc with rfl | hc
      · decide
      · exact href c hc

theorem HttpBase.ne_nil {base : JSString} (h : HttpBase (urlParse Q base false false)) :
    base ≠ [] := by
  rintro rfl
  cases h.protocol

attribute [local irreducible] urlParse

/-- The path of `url.resolve` for an http base with a host and a reference that is only a path is
what RFC 3986 says, unless an empty segment is lost. -/
theorem resolve_pathname_iff (Q : QueryString) {base ref refPath : JSString}
    (hbase : HttpBase (urlParse Q base false false))
    (href : PathOnly (urlParse Q ref false true) refPath) :
    (urlParse Q (urlResolve Q base ref) false false).pathname =
        some (transformPath (basePath (urlParse Q base false false)) refPath) ↔
      ¬ LosesEmpty (segmentsOf (mergedPath (basePath (urlParse Q base false false)) refPath)) := by
  obtain ⟨text, path, hsource⟩ := source_spec hbase
  obtain ⟨hrelative, -, -⟩ := relative_eq href
  obtain ⟨hrefPath, hrefChars, hhref, hslashes, hquery⟩ := refPath_spec href
  have hbaseNe : base ≠ [] := hbase.ne_nil
  rw [transformPath, hsource.merged]
  have hhead := head_mergedPath hsource.head refPath
  obtain ⟨-, hne, hpathOf, hslash⟩ := segments_spec hhead
  have hchars := isPath_segmentsOf hhead
    (isPath_mergedPath (List.mem_of_head? hsource.head) hsource.isPath hrefChars)
  obtain ⟨hisPath, hrooted⟩ := handledPath_spec hslash hne hchars
  have hresolve : urlResolve Q base ref = js "http:" ++ (slash :: slash ::
      ((hostStage text).1.host ++ handledPath (segmentsOf (mergedPath path refPath)))) := by
    have hparts := @resolveParts_path Q
      { urlParse Q (urlFormatString Q base) false true with
        hash := (urlParse Q ref false true).hash }
      (urlParse Q ref false true) _ path refPath hsource.protocol hsource.host hsource.host_ne
      hsource.pathname hsource.head href hrefPath
    unfold urlResolve urlResolveObject
    simp only [if_neg hbaseNe, hrelative, if_neg hhref, hslashes, href.protocol, Bool.false_and,
      Bool.false_eq_true, if_false, hparts, truthy, Option.filter_none, Option.isSome_none]
    exact urlFormat_http hsource.protocol hsource.slashes hsource.host rfl hrooted href.search
      href.hash hquery
  have hreparse : (urlParse Q (urlResolve Q base ref) false false).pathname =
      some (handledPath (segmentsOf (mergedPath path refPath))) := by
    have hpart := hisPath.pathPart
    have hrooted' : Rooted (handledPath (segmentsOf (mergedPath path refPath))) := by
      intro c hc
      rw [hrooted] at hc
      exact .inl (Option.some.inj hc).symm
    obtain ⟨host, -, -, hparse⟩ := @urlParse_http Q text _ hrooted' hisPath.safe false
    rw [hresolve, hparse, pathname_assemble, hpart]
    rw [hpart]
    rintro hnil
    rw [hnil] at hrooted
    cases hrooted
  rw [hreparse, Option.some.injEq, ← handledPath_iff hslash hne, hpathOf]

end

/-- `../g` -/
theorem resolve_pathname_iff_g :
    (urlParse noQuery (urlResolve noQuery (js "http://a/b/c/d;p?q") (js "../g")) false
        false).pathname =
        some (transformPath (basePath (urlParse noQuery (js "http://a/b/c/d;p?q") false false))
          (js "../g")) ↔
      ¬ LosesEmpty (segmentsOf (mergedPath
        (basePath (urlParse noQuery (js "http://a/b/c/d;p?q") false false)) (js "../g"))) :=
  resolve_pathname_iff noQuery
    ⟨by decide +kernel, js "a", by decide +kernel, by decide +kernel⟩
    ⟨by decide +kernel, by decide +kernel, by decide +kernel, by decide +kernel,
      by decide +kernel⟩

/-- Of `..//a` at the root the first segment is empty, and the code takes it for the root. -/
theorem resolve_pathname_climbs : ¬ ∀ base ref refPath : JSString,
    HttpBase (urlParse noQuery base false false) →
    PathOnly (urlParse noQuery ref false true) refPath →
    (urlParse noQuery (urlResolve noQuery base ref) false false).pathname =
      some (transformPath (basePath (urlParse noQuery base false false)) refPath) := by
  intro h
  have hpath := h (js "http://h/") (js "..//a") (js "..//a")
    ⟨by decide +kernel, js "h", by decide +kernel, by decide +kernel⟩
    ⟨by decide +kernel, by decide +kernel, by decide +kernel, by decide +kernel,
      by decide +kernel⟩
  have hcode : (urlParse noQuery (urlResolve noQuery (js "http://h/") (js "..//a")) false
      false).pathname = some (js "/a") := by decide +kernel
  have hrfc : transformPath (basePath (urlParse noQuery (js "http://h/") false false))
      (js "..//a") = js "//a" := by decide +kernel
  rw [hcode, hrfc] at hpath
  exact absurd hpath (by decide)

end NodeJS.Url
