import NodeJS.Url.Validate

/-! The `href` of a URL as a text. -/
namespace NodeJS.Url

/-! ### The tail -/

/-- The text with its apostrophes escaped, up to a delimiter. -/
def tidy (rest : JSString) : JSString := chop (escapeRest rest)

theorem tidy_nil : tidy [] = [] := rfl

theorem tidy_cons (c : UInt16) (rest : JSString) :
    tidy (c :: rest) = if c = apostrophe then js "%27" ++ tidy rest
      else if delims.contains c then [] else c :: tidy rest := by
  unfold tidy
  simp only [chop_eq, escapeRest_eq, replaceAll, List.flatMap_cons]
  split_ifs with hc hdelim
  · exact List.takeWhile_append_of_pos (by decide)
  · exact List.takeWhile_cons_of_neg (by rw [hdelim]; decide)
  · exact List.takeWhile_cons_of_pos (by simpa using hdelim)

theorem safe_tidy (rest : JSString) : Safe (tidy rest) := safe_chop rest

theorem tidy_append {x : JSString} (hx : ∀ c ∈ x, delims.contains c = false) (rest : JSString) :
    tidy (x ++ rest) = tidy x ++ tidy rest := by
  induction x with
  | nil => rfl
  | cons c x ih =>
    obtain ⟨hc, hx⟩ := List.forall_mem_cons.mp hx
    rw [List.cons_append, tidy_cons, tidy_cons, hc, ih hx, if_neg Bool.false_ne_true,
      if_neg Bool.false_ne_true]
    split_ifs
    · rw [List.append_assoc]
    · rfl

theorem tidy_safe {s : JSString} (hs : Safe s) : tidy s = s := by
  induction s with
  | nil => rfl
  | cons c s ih =>
    obtain ⟨⟨hdelim, hc⟩, hs⟩ := safe_cons.mp hs
    rw [tidy_cons, if_neg hc, if_neg (by rw [hdelim]; decide), ih hs]

theorem mem_tidy {c : UInt16} {rest : JSString} (h : c ∈ tidy rest) : c ∈ js "%27" ∨ c ∈ rest := by
  unfold tidy at h
  rw [chop_eq, escapeRest_eq] at h
  exact (mem_replaceAll ((List.takeWhile_prefix _).mem h)).imp_right And.left

/-- A character that stays stands behind the same text, which may have had apostrophes. -/
theorem tidy_eq_split {c : UInt16} (hc : Safe [c]) (hescape : c ∉ js "%27") {rest x z : JSString}
    (h : tidy rest = x ++ c :: z) : ∃ x₀ z₀, rest = x₀ ++ c :: z₀ ∧ x = tidy x₀ ∧ z = tidy z₀ ∧
      ∀ d ∈ x₀, d = apostrophe ∨ d ∈ x := by
  induction rest generalizing x with
  | nil =>
    rw [tidy_nil] at h
    exact absurd h.symm (by simp)
  | cons d rest ih =>
    rw [tidy_cons] at h
    split_ifs at h with hd hdelim
    · -- what an apostrophe becomes is part of the text in front
      obtain ⟨y, hx, hy⟩ : ∃ y, x = js "%27" ++ y ∧ tidy rest = y ++ c :: z := by
        rcases List.append_eq_append_iff.mp h with ⟨y, hx, hy⟩ | ⟨y, hx, hy⟩
        · exact ⟨y, hx, hy⟩
        · cases y with
          | nil => exact ⟨[], by rw [hx, List.append_nil, List.append_nil], hy.symm⟩
          | cons e y =>
            obtain ⟨rfl, -⟩ := List.cons_eq_cons.mp hy
            exact absurd (by rw [hx]; simp) hescape
      obtain ⟨x₀, z₀, rfl, rfl, rfl, hmem⟩ := ih hy
      refine ⟨d :: x₀, z₀, rfl, ?_, rfl, ?_⟩
      · rw [hx, tidy_cons, if_pos hd]
      · refine List.forall_mem_cons.mpr ⟨.inl hd, fun e he => (hmem e he).imp_right fun he => ?_⟩
        rw [hx]
        exact List.mem_append_right _ he
    · exact absurd h.symm (by simp)
    · cases x with
      | nil =>
        obtain ⟨rfl, rfl⟩ := List.cons_eq_cons.mp h
        exact ⟨[], rest, rfl, rfl, rfl, nofun⟩
      | cons e x =>
        obtain ⟨rfl, hrest⟩ := List.cons_eq_cons.mp h
        obtain ⟨x₀, z₀, rfl, rfl, rfl, hmem⟩ := ih hrest
        refine ⟨d :: x₀, z₀, rfl, ?_, rfl, ?_⟩
        · rw [tidy_cons, if_neg hd, if_neg hdelim]
        · exact List.forall_mem_cons.mpr ⟨.inr List.mem_cons_self,
            fun e he => (hmem e he).imp_right (List.mem_cons_of_mem _)⟩

/-- A beginning without an escape stands there from the beginning. -/
theorem tidy_eq_append {x : JSString} (hpercent : percentSign ∉ x) {rest z : JSString}
    (h : tidy rest = x ++ z) : ∃ z₀, rest = x ++ z₀ ∧ z = tidy z₀ := by
  induction x generalizing rest with
  | nil => exact ⟨rest, rfl, h.symm⟩
  | cons c x ih =>
    obtain ⟨hc, hx⟩ := not_or.mp (mt List.mem_cons.mpr hpercent)
    cases rest with
    | nil => exact absurd h.symm (by simp [tidy_nil])
    | cons d rest =>
      rw [tidy_cons] at h
      split_ifs at h with hd hdelim
      · exact absurd (List.cons_eq_cons.mp h).1 hc
      · cases h
      · obtain ⟨rfl, hrest⟩ := List.cons_eq_cons.mp h
        obtain ⟨z₀, rfl, rfl⟩ := ih hx hrest
        exact ⟨z₀, rfl, rfl⟩

/-- The tail where a slash must stand in front of a path, and where a path may have to be. -/
def rooted (pathed : Bool) : JSString → JSString
  | [] => if pathed then [slash] else []
  | c :: rest =>
    if c = slash ∨ pathed = false ∧ (c = questionMark ∨ c = hashMark) then c :: rest
    else slash :: c :: rest

/-- The end of the text, or a character that a host, a user and their port are never read over. -/
def Rooted (tail : JSString) : Prop :=
  ∀ c ∈ tail.head?, c = slash ∨ c = questionMark ∨ c = hashMark

theorem rooted_spec (pathed : Bool) (rest : JSString) : Rooted (rooted pathed rest) := by
  unfold Rooted
  cases rest with
  | nil => cases pathed <;> simp [rooted]
  | cons c rest =>
    rw [rooted]
    split_ifs with hc
    · simpa using hc.imp_right And.right
    · simp

theorem rooted_of_spec {rest : JSString} (h : Rooted rest) : rooted false rest = rest := by
  cases rest with
  | nil => rfl
  | cons c rest =>
    have hc := h c rfl
    rw [rooted]
    exact if_pos (hc.imp_right fun hc => ⟨rfl, hc⟩)

theorem rooted_rooted (pathed : Bool) (rest : JSString) :
    rooted pathed (rooted pathed rest) = rooted pathed rest := by
  cases pathed with
  | false => exact rooted_of_spec (rooted_spec false rest)
  | true =>
    have hslash : ∃ more, rooted true rest = slash :: more := by
      cases rest with
      | nil => exact ⟨[], rfl⟩
      | cons c rest =>
        by_cases hc : c = slash
        · exact ⟨rest, by simp [rooted, hc]⟩
        · exact ⟨c :: rest, by simp [rooted, hc]⟩
    obtain ⟨more, hmore⟩ := hslash
    rw [hmore, rooted]
    exact if_pos (.inl rfl)

theorem safe_rooted (pathed : Bool) {rest : JSString} (h : Safe rest) :
    Safe (rooted pathed rest) := by
  have hslash : Safe [slash] := by decide
  cases rest with
  | nil =>
    rw [rooted]
    split_ifs
    · exact hslash
    · exact h
  | cons c rest =>
    rw [rooted]
    split_ifs
    · exact h
    · exact safe_cons.mpr ⟨(safe_cons.mp hslash).1, h⟩

/-! ### The `href` -/

/-- What stands behind a scheme in small letters, or behind none. -/
def bodyText (proto : Option JSString) (rest : JSString) : JSString :=
  if hasSlashes false proto rest then
    let (host, tail) := hostStage (rest.drop 2)
    let pathed := has slashedProtocol proto && decide (host.hostname ≠ [])
    slash :: slash :: (host.host ++ rooted pathed (tidy tail))
  else if proto.isSome && !has hostlessProtocol proto && !has slashedProtocol proto then
    (hostStage rest).1.host ++ tidy (hostStage rest).2
  else if has hostlessProtocol proto then rest else tidy rest

section
variable {Q : QueryString}

theorem getLast_proto {rest proto : JSString} (h : protocolPattern rest = some proto) :
    proto.getLast? = some colon := by
  obtain ⟨name, more, rfl, -⟩ := protocolPattern_some h
  exact List.getLast?_concat

/-- The pieces of the tail, one after the other. -/
theorem tailStage_append (rest : JSString) :
    (tailStage Q false rest).pathname ++
      (((tailStage Q false rest).search).getD [] ++ ((tailStage Q false rest).hash).getD []) =
        rest := by
  have hcut : (cutHash rest).2 ++ (cutHash rest).1.getD [] = rest := by
    unfold cutHash
    cases rest.idxOf? hashMark with
    | none => exact List.append_nil _
    | some hash => exact List.take_append_drop hash rest
  unfold tailStage
  dsimp only
  cases hqm : (cutHash rest).2.idxOf? questionMark with
  | none => simpa using hcut
  | some qm =>
    dsimp only
    rw [Option.getD_some, ← List.append_assoc, List.take_append_drop, hcut]

theorem head_drop {c : UInt16} {s : JSString} {i : ℕ} (h : s.idxOf? c = some i) :
    ∃ more, s.drop i = c :: more := by
  obtain ⟨hlt, hget, -⟩ := List.idxOf?_eq_some_iff.mp h
  exact ⟨_, by rw [List.drop_eq_getElem_cons hlt, hget]⟩

theorem search_tailStage (rest : JSString) : (tailStage Q false rest).search = none ∨
    ∃ more, (tailStage Q false rest).search = some (questionMark :: more) := by
  unfold tailStage
  dsimp only
  cases hqm : (cutHash rest).2.idxOf? questionMark with
  | none => exact .inl rfl
  | some qm =>
    obtain ⟨more, hmore⟩ := head_drop hqm
    exact .inr ⟨more, congrArg some hmore⟩

theorem hash_tailStage (rest : JSString) : (tailStage Q false rest).hash = none ∨
    ∃ more, (tailStage Q false rest).hash = some (hashMark :: more) := by
  have hcut : (cutHash rest).1 = none ∨ ∃ more, (cutHash rest).1 = some (hashMark :: more) := by
    unfold cutHash
    cases hhash : rest.idxOf? hashMark with
    | none => exact .inl rfl
    | some hash =>
      obtain ⟨more, hmore⟩ := head_drop hhash
      exact .inr ⟨more, congrArg some hmore⟩
  unfold tailStage
  dsimp only
  cases (cutHash rest).2.idxOf? questionMark <;> exact hcut

theorem startWith_search (rest : JSString) :
    startWith questionMark ((truthy (tailStage Q false rest).search).getD
      (if formatQuery (tailStage Q false rest).query ≠ [] then
        questionMark :: formatQuery (tailStage Q false rest).query else [])) =
      (tailStage Q false rest).search.getD [] := by
  have hquery := query_tailStage (Q := Q) false rest
  rcases search_tailStage (Q := Q) rest with hsearch | ⟨more, hsearch⟩
  · rw [hsearch] at hquery ⊢
    rw [hquery rfl]
    rfl
  · rw [hsearch, truthy_some (List.cons_ne_nil _ _)]
    exact if_neg fun hne => hne.2 rfl

theorem startWith_hash (rest : JSString) :
    startWith hashMark ((tailStage Q false rest).hash.getD []) =
      (tailStage Q false rest).hash.getD [] := by
  rcases hash_tailStage (Q := Q) rest with hhash | ⟨more, hhash⟩
  · rw [hhash]
    rfl
  · rw [hhash]
    exact if_neg fun hne => hne.2 rfl

/-- A path that must be there, in front of the rest of the tail. -/
theorem startWith_pathname (pathed : Bool) (rest : JSString) :
    startWith slash ((if (tailStage Q false rest).pathname ≠ [] then
        some (tailStage Q false rest).pathname else if pathed then some [slash] else none).getD []) ++
      ((tailStage Q false rest).search.getD [] ++ (tailStage Q false rest).hash.getD []) =
        rooted pathed rest := by
  have happend := tailStage_append (Q := Q) rest
  have hpath := pathname_tailStage (Q := Q) false rest
  generalize tailStage Q false rest = tail at happend hpath ⊢
  cases rest with
  | nil =>
    obtain ⟨hpathname, hsearch⟩ := List.append_eq_nil_iff.mp happend
    rw [hpathname, hsearch]
    cases pathed <;> rfl
  | cons c rest =>
    rw [rooted]
    by_cases hc : c = questionMark ∨ c = hashMark
    · have hslash : c ≠ slash := by
        rcases hc with rfl | rfl <;> decide
      have hnil : tail.pathname = [] := by
        rw [hpath, List.takeWhile_cons_of_neg]
        rcases hc with rfl | rfl <;> decide
      rw [hnil, List.nil_append] at happend
      rw [hnil, happend]
      cases pathed <;> simp [startWith, hc, hslash]
    · obtain ⟨hquestion, hhash⟩ := not_or.mp hc
      have hcons : tail.pathname =
          c :: rest.takeWhile fun c => c != questionMark && c != hashMark := by
        rw [hpath, List.takeWhile_cons_of_pos (by simp [hquestion, hhash])]
      rw [if_pos (by simp [hcons]), Option.getD_some, startWith, ← happend]
      by_cases hslash : c = slash
      · simp [hcons, hslash]
      · simp [hcons, hslash, hquestion, hhash]

/-- Whether `urlFormat` writes slashes. -/
def writesSlashes (proto : Option JSString) (slashes : Bool) (host : Option Host) : Bool :=
  slashes || ((proto.map toLowerCase).isNone || has slashedProtocol (proto.map toLowerCase)) &&
    host.isSome

/-- A scheme in the table is in small letters. -/
theorem toLowerCase_slashed {proto : Option JSString} (h : has slashedProtocol proto = true) :
    proto.map toLowerCase = proto := by
  cases proto with
  | none => rfl
  | some p =>
    have hall : ∀ x ∈ slashedProtocol, toLowerCase x = x := by decide
    exact congrArg some (hall p (List.contains_iff_mem.mp h))

/-- The pieces of the `href`, one after the other. -/
theorem href_assemble {proto : Option JSString} (hlast : ∀ p ∈ proto, p.getLast? = some colon)
    (slashes : Bool) (host : Option Host) (rest : JSString) :
    (assemble proto slashes host (tailStage Q false rest)).href =
      (proto.map toLowerCase).getD [] ++
        ((if writesSlashes proto slashes host then [slash, slash] else []) ++
          ((host.map Host.host).getD [] ++
            if writesSlashes proto slashes host then rooted (has slashedProtocol proto &&
              (truthy (host.map Host.hostname)).isSome) rest else rest)) := by
  have hlast' : ∀ p ∈ proto.map toLowerCase, p.getLast? = some colon := by
    intro p hp
    obtain ⟨p₀, hp₀, rfl⟩ := Option.mem_map.mp hp
    obtain ⟨name, rfl⟩ := List.getLast?_eq_some_iff.mp (hlast p₀ hp₀)
    rw [toLowerCase, List.map_append]
    exact List.getLast?_concat
  have hcolon : (if (proto.map toLowerCase).getD [] ≠ [] ∧
      ((proto.map toLowerCase).getD []).getLast? ≠ some colon then
        (proto.map toLowerCase).getD [] ++ [colon] else (proto.map toLowerCase).getD []) =
      (proto.map toLowerCase).getD [] := by
    cases hproto : proto.map toLowerCase with
    | none => rfl
    | some p => exact if_neg fun h => h.2 (hlast' p hproto)
  have hhost : ((host.map Host.host).or ((host.map Host.hostname).map fun hostname =>
      formatAuth (host.bind Host.auth) ++ hostname ++
        (truthy (host.bind Host.port)).elim [] (colon :: ·))) = host.map Host.host := by
    cases host <;> rfl
  have hwritten : (slashes || (decide ((proto.map toLowerCase).getD [] = []) ||
      has slashedProtocol (some ((proto.map toLowerCase).getD []))) &&
        (host.map Host.host).isSome) = writesSlashes proto slashes host := by
    rw [writesSlashes, Option.isSome_map]
    cases hproto : proto.map toLowerCase with
    | none => simp
    | some p =>
      have hne : p ≠ [] := by
        rintro rfl
        cases hlast' [] hproto
      simp [hne]
  unfold assemble urlFormat
  dsimp only
  rw [hcolon, hhost, hwritten, startWith_search, startWith_hash]
  cases hslashes : writesSlashes proto slashes host with
  | true => simp only [if_true, List.append_assoc, startWith_pathname]
  | false =>
    -- a path that must be there is there behind slashes only
    have hnone : (has slashedProtocol proto &&
        (truthy (host.map Host.hostname)).isSome) = false := by
      cases host with
      | none => exact Bool.and_false _
      | some h =>
        cases hslashed : has slashedProtocol proto with
        | false => rfl
        | true =>
          rw [writesSlashes, toLowerCase_slashed hslashed, hslashed] at hslashes
          simp at hslashes
    have hpath : (if (tailStage Q false rest).pathname ≠ [] then
        some (tailStage Q false rest).pathname else none).getD [] =
          (tailStage Q false rest).pathname := by
      split_ifs with hne
      · rfl
      · exact (not_not.mp hne).symm
    simp only [hnone, Bool.false_eq_true, if_false, List.nil_append, List.append_assoc, hpath,
      tailStage_append]

end

-- unfolded, these run through the strings of delimiters
attribute [local irreducible] firstNonHost chop

/-- The `href` of a URL with its scheme in small letters, or none. -/
theorem href_eq (Q : QueryString) {url : JSString}
    (hlower : (schemeOf url).map toLowerCase = schemeOf url) :
    (urlParse Q url false false).href =
      (schemeOf url).getD [] ++ bodyText (schemeOf url) (afterScheme url) := by
  have hlast : ∀ p ∈ schemeOf url, p.getLast? = some colon := fun p hp => getLast_proto hp
  rw [urlParse_eq]
  dsimp only
  generalize schemeOf url = proto at hlower hlast ⊢
  generalize afterScheme url = rest
  rw [href_assemble hlast]
  unfold tailText bodyText hostText writesSlashes
  rw [hlower]
  by_cases hslashes : hasSlashes false proto rest = true
  · have hhostless : has unsafeProtocol proto = false := (hasSlashes_iff.mp hslashes).2.2
    rw [if_pos hslashes, hslashes, hhostless]
    simp only [Option.map_some, Option.elim_some, Option.getD_some, isSome_truthy, if_true,
      Bool.true_or]
    rfl
  · rw [if_neg hslashes, Bool.eq_false_iff.mpr hslashes, if_neg Bool.false_ne_true]
    by_cases hhosted : (proto.isSome && !has hostlessProtocol proto &&
      !has slashedProtocol proto) = true
    · obtain ⟨hsome, hhostless, hslashed⟩ : proto.isSome = true ∧
          has hostlessProtocol proto = false ∧ has slashedProtocol proto = false := by
        simpa [and_assoc] using hhosted
      obtain ⟨p, rfl⟩ := Option.isSome_iff_exists.mp hsome
      have hunsafe : has unsafeProtocol (some p) = false := hhostless
      rw [if_pos hhosted, if_pos hhosted, hunsafe, hslashed]
      rfl
    · rw [if_neg hhosted, if_neg hhosted, Option.map_none, Option.isSome_none, Bool.and_false]
      rfl

end NodeJS.Url
