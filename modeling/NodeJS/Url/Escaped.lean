import NodeJS.Url.Stages

/-! The characters that never get into the `href` of a parsed URL, and how one of them does. -/
namespace NodeJS.Url

/-! ### Safe texts -/

/-- No delimiter and no apostrophe. -/
def Safe (s : JSString) : Prop := ∀ c ∈ s, delims.contains c = false ∧ c ≠ apostrophe

instance (s : JSString) : Decidable (Safe s) := inferInstanceAs (Decidable (∀ c ∈ s, _))

theorem safe_nil : Safe [] := nofun

theorem safe_append {x y : JSString} : Safe (x ++ y) ↔ Safe x ∧ Safe y := List.forall_mem_append

theorem safe_cons {c : UInt16} {s : JSString} :
    Safe (c :: s) ↔ (delims.contains c = false ∧ c ≠ apostrophe) ∧ Safe s := List.forall_mem_cons

/-- A class of characters that none of the forbidden ones is in. -/
theorem safe_of_class {p : UInt16 → Bool}
    (hp : (delims ++ autoEscape).all (fun c => !p c) = true) {s : JSString}
    (h : ∀ c ∈ s, p c = true) : Safe s := by
  intro c hc
  have hnot : ∀ d ∈ delims ++ autoEscape, d ≠ c := by
    rintro d hd rfl
    have hd := List.all_eq_true.mp hp d hd
    rw [h d hc] at hd
    cases hd
  refine ⟨Bool.eq_false_iff.mpr fun hmem => ?_, fun heq => ?_⟩
  · exact hnot c (List.mem_append_left _ (List.contains_iff_mem.mp hmem)) rfl
  · exact hnot c (List.mem_append_right _ (by rw [heq]; exact List.mem_singleton_self _)) rfl

theorem Safe.sublist {x y : JSString} (h : Safe y) (hsub : x.Sublist y) : Safe x :=
  fun c hc => h c (hsub.mem hc)

/-! ### The protocol -/

theorem isAlnum_lowerUnit {c : UInt16} (h : isAlnum c = true) : isAlnum (lowerUnit c) = true := by
  unfold lowerUnit
  unfold isAlnum at h ⊢
  split_ifs with hupper
  · simp only [Bool.or_eq_true, Bool.and_eq_true, decide_eq_true_eq, UInt16.le_iff_toNat_le,
      UInt16.toNat_add, UInt16.reduceToNat] at h hupper ⊢
    omega
  · exact h

theorem isNameChar_lowerUnit {c : UInt16} (h : isNameChar c = true) :
    isNameChar (lowerUnit c) = true := by
  unfold isNameChar at h ⊢
  rcases Bool.or_eq_true_iff.mp h with h | h
  · rcases Bool.or_eq_true_iff.mp h with h | h
    · simp [isAlnum_lowerUnit h]
    · rw [eq_of_beq h]
      decide
  · rw [eq_of_beq h]
    decide

/-- What `protocolPattern` matches. -/
theorem protocolPattern_some {rest proto : JSString} (h : protocolPattern rest = some proto) :
    ∃ name more, proto = name ++ [colon] ∧ rest = proto ++ more ∧ name ≠ [] ∧
      ∀ c ∈ name, isAlnum c = true := by
  unfold protocolPattern at h
  dsimp only at h
  split_ifs at h with hmatch
  obtain ⟨hne, hcolon⟩ := hmatch
  obtain ⟨more, hmore⟩ := List.head?_eq_some_iff.mp hcolon
  obtain rfl := Option.some.inj h
  have htake : rest.take (rest.takeWhile isAlnum).length = rest.takeWhile isAlnum :=
    (List.prefix_iff_eq_take.mp (List.takeWhile_prefix _)).symm
  refine ⟨_, more, rfl, ?_, hne, fun c hc => List.mem_takeWhile_imp hc⟩
  rw [List.append_assoc, List.singleton_append, ← hmore]
  conv_lhs => rw [← List.take_append_drop (rest.takeWhile isAlnum).length rest, htake]

theorem safe_protocol {rest proto : JSString} (h : protocolPattern rest = some proto) :
    Safe (toLowerCase proto) := by
  obtain ⟨name, more, rfl, -, -, hname⟩ := protocolPattern_some h
  unfold toLowerCase
  rw [List.map_append, safe_append]
  refine ⟨safe_of_class (p := isAlnum) (by decide) fun c hc => ?_, by decide⟩
  obtain ⟨d, hd, rfl⟩ := List.mem_map.mp hc
  exact isAlnum_lowerUnit (hname d hd)

/-! ### The host -/

theorem mem_intercalate {a c : UInt16} {parts : List JSString} (h : c ∈ [a].intercalate parts) :
    c = a ∨ ∃ part ∈ parts, c ∈ part := by
  induction parts with
  | nil => cases h
  | cons part parts ih =>
    by_cases hnil : parts = []
    · rw [hnil, List.intercalate_singleton] at h
      exact .inr ⟨part, List.mem_cons_self, h⟩
    · rw [List.intercalate_cons_of_ne_nil hnil, List.append_assoc, List.mem_append,
        List.mem_append, List.mem_singleton] at h
      rcases h with h | h | h
      · exact .inr ⟨part, List.mem_cons_self, h⟩
      · exact .inl h
      · exact (ih h).imp_right fun ⟨x, hx, hc⟩ => ⟨x, List.mem_cons_of_mem _ hx, hc⟩

/-- Parts that are valid, or empty, up to the first other one. -/
theorem firstInvalid_spec (validParts parts : List JSString) :
    (firstInvalid validParts parts = none ∧
      ∀ part ∈ parts, part = [] ∨ hostnamePartPattern part = true) ∨
    ∃ valid part notHost,
      firstInvalid validParts parts = some (validParts ++ valid, part, notHost) ∧
      parts = valid ++ part :: notHost ∧
      (∀ part ∈ valid, part = [] ∨ hostnamePartPattern part = true) ∧
      part ≠ [] ∧ hostnamePartPattern part = false := by
  induction parts generalizing validParts with
  | nil => exact .inl ⟨rfl, nofun⟩
  | cons part parts ih =>
    unfold firstInvalid
    split_ifs with hvalid
    · rcases ih (validParts ++ [part]) with ⟨hnone, hall⟩ | ⟨valid, bad, notHost, hsome, hparts,
        hall, hbad⟩
      · exact .inl ⟨hnone, List.forall_mem_cons.mpr ⟨hvalid, hall⟩⟩
      · refine .inr ⟨part :: valid, bad, notHost, ?_, by rw [hparts]; rfl,
          List.forall_mem_cons.mpr ⟨hvalid, hall⟩, hbad⟩
        rw [hsome, List.append_assoc]
        rfl
    · obtain ⟨hne, hpattern⟩ := not_or.mp hvalid
      refine .inr ⟨[], part, parts, ?_, rfl, nofun, hne, Bool.eq_false_iff.mpr hpattern⟩
      rw [List.append_nil]

theorem nameChar_of_pattern {part : JSString} (h : hostnamePartPattern part = true) :
    ∀ c ∈ part, isNameChar c = true := by
  cases part with
  | nil => cases h
  | cons c part =>
    simp only [hostnamePartPattern, Bool.and_eq_true, List.all_eq_true] at h
    refine List.forall_mem_cons.mpr ⟨?_, h.2⟩
    rw [isNameChar, h.1.1]
    rfl

theorem nameChar_of_start {part bit more : JSString}
    (h : hostnamePartStart part = some (bit, more)) : ∀ c ∈ bit, isNameChar c = true := by
  cases part with
  | nil => cases h
  | cons c part =>
    unfold hostnamePartStart at h
    dsimp only at h
    split_ifs at h with hmatch
    obtain ⟨rfl, -⟩ := Prod.mk.inj (Option.some.inj h)
    refine List.forall_mem_cons.mpr ⟨?_, fun d hd =>
      List.mem_takeWhile_imp (List.mem_of_mem_take hd)⟩
    rw [isNameChar, ((Bool.and_eq_true _ _).mp hmatch).1]
    rfl

def isHostChar (c : UInt16) : Bool := isNameChar c || c == dot

theorem hostChar_of_valid {parts : List JSString}
    (h : ∀ part ∈ parts, part = [] ∨ hostnamePartPattern part = true) :
    ∀ c ∈ [dot].intercalate parts, isHostChar c = true := by
  intro c hc
  unfold isHostChar
  rcases mem_intercalate hc with rfl | ⟨part, hpart, hc⟩
  · decide
  · rcases h part hpart with rfl | hpattern
    · cases hc
    · rw [nameChar_of_pattern hpattern c hc, Bool.true_or]

theorem hostChar_validate (hostname rest : JSString) :
    ∀ c ∈ (validate hostname rest).1, isHostChar c = true := by
  unfold validate
  split_ifs with hlong
  · exact nofun
  · rcases firstInvalid_spec [] (hostname.splitOn dot) with ⟨hnone, hall⟩ | ⟨valid, part, notHost,
      hsome, -, hvalid, -, -⟩
    · rw [hnone]
      intro c hc
      exact hostChar_of_valid hall c (by rwa [List.intercalate_splitOn])
    · rw [hsome]
      dsimp only [List.nil_append]
      cases hstart : hostnamePartStart part with
      | none => exact hostChar_of_valid hvalid
      | some found =>
        obtain ⟨bit, more⟩ := found
        intro c hc
        unfold isHostChar
        rcases mem_intercalate hc with rfl | ⟨x, hx, hcx⟩
        · decide
        · rcases List.mem_append.mp hx with hx | hx
          · rcases hvalid x hx with rfl | hpattern
            · cases hcx
            · rw [nameChar_of_pattern hpattern c hcx, Bool.true_or]
          · rw [List.mem_singleton.mp hx] at hcx
            rw [nameChar_of_start hstart c hcx, Bool.true_or]

theorem portPattern_some {host port : JSString} (h : portPattern host = some port) :
    ∃ digits, port = colon :: digits ∧ ∀ c ∈ digits, isDigit c = true := by
  unfold portPattern at h
  dsimp only at h
  split_ifs at h
  obtain rfl := Option.some.inj h
  exact ⟨_, rfl, fun c hc => List.mem_rtakeWhile_imp hc⟩

theorem digit_of_parseHost (host : JSString) :
    ∀ c ∈ (parseHost host).1.getD [], isDigit c = true := by
  unfold parseHost
  cases hport : portPattern host with
  | none => exact nofun
  | some port =>
    obtain ⟨digits, rfl, hdigits⟩ := portPattern_some hport
    exact hdigits

theorem truthy_some {s : JSString} (h : s ≠ []) : truthy (some s) = some s := by
  simp [truthy, Option.filter, h]

theorem isSome_truthy (s : JSString) : (truthy (some s)).isSome = decide (s ≠ []) := by
  by_cases hs : s = []
  · rw [hs]
    rfl
  · rw [truthy_some hs, decide_eq_true hs]
    rfl

theorem safe_truthy {value : Option JSString} :
    Safe ((truthy value).getD []) ↔ Safe (value.getD []) := by
  cases value with
  | none => exact Iff.rfl
  | some s =>
    by_cases hs : s = []
    · rw [hs]
      exact Iff.rfl
    · rw [truthy_some hs]

/-- Only the auth gets into the host as it is. -/
theorem safe_hostStage (rest : JSString) :
    Safe (hostStage rest).1.host ↔ Safe ((pluckAuth rest).1.getD []) := by
  unfold hostStage
  dsimp only
  have hname := hostChar_validate ((parseHost (cutHost (pluckAuth rest).2).1).2.getD [])
    (cutHost (pluckAuth rest).2).2
  have hdigit := digit_of_parseHost (cutHost (pluckAuth rest).2).1
  generalize validate _ _ = validated at hname ⊢
  generalize (parseHost _).1 = port at hdigit ⊢
  generalize (pluckAuth rest).1 = auth
  have hhostname : Safe (toLowerCase validated.1) := by
    refine safe_of_class (p := isHostChar) (by decide) fun c hc => ?_
    obtain ⟨d, hd, rfl⟩ := List.mem_map.mp hc
    unfold isHostChar
    rcases Bool.or_eq_true_iff.mp (hname d hd) with h | h
    · rw [isNameChar_lowerUnit h, Bool.true_or]
    · rw [eq_of_beq h]
      decide
  have hport : Safe ((truthy port).elim [] (colon :: ·)) := by
    have hsafe : Safe (port.getD []) := safe_of_class (p := isDigit) (by decide) hdigit
    rw [← safe_truthy] at hsafe
    cases htruthy : truthy port with
    | none => exact safe_nil
    | some s =>
      rw [htruthy] at hsafe
      exact safe_cons.mpr ⟨by decide, hsafe⟩
  rw [safe_append, safe_append, ← safe_truthy]
  cases truthy auth with
  | none => simp [hhostname, hport, safe_nil]
  | some s =>
    have hat : Safe [atSign] := by decide
    simp [hhostname, hport, safe_append, hat]

/-! ### What follows the host -/

theorem mem_replaceAll {c d : UInt16} {esc s : JSString} (h : d ∈ replaceAll c esc s) :
    d ∈ esc ∨ d ∈ s ∧ d ≠ c := by
  obtain ⟨x, hx, hd⟩ := List.mem_flatMap.mp h
  split_ifs at hd with hc
  · exact .inl hd
  · obtain rfl := List.mem_singleton.mp hd
    exact .inr ⟨hx, hc⟩

theorem escapeRest_eq (rest : JSString) :
    escapeRest rest = replaceAll apostrophe (js "%27") rest := by
  have hesc : encodeCharacter apostrophe = [apostrophe] := by decide
  have hescape : escape apostrophe = js "%27" := by decide
  unfold escapeRest autoEscape
  simp only [List.foldl_cons, List.foldl_nil, hesc, hescape, if_true]

theorem safe_chop (rest : JSString) : Safe (chop (escapeRest rest)) := by
  rw [chop_eq, escapeRest_eq]
  intro c hc
  have hdelim : delims.contains c = false := by simpa using List.mem_takeWhile_imp hc
  refine ⟨hdelim, ?_⟩
  rintro rfl
  rcases mem_replaceAll ((List.takeWhile_prefix _).mem hc) with h | h
  · exact absurd h (by decide)
  · exact h.2 rfl

section
variable {Q : QueryString}

theorem safe_cutHash {rest : JSString} (h : Safe rest) :
    Safe ((cutHash rest).1.getD []) ∧ Safe (cutHash rest).2 := by
  unfold cutHash
  cases rest.idxOf? hashMark with
  | none => exact ⟨safe_nil, h⟩
  | some hash => exact ⟨h.sublist (List.drop_sublist _ _), h.sublist (List.take_sublist _ _)⟩

/-- The pieces of the tail are pieces of the text. -/
theorem safe_tailStage (parseQueryString : Bool) {rest : JSString} (h : Safe rest) :
    Safe ((tailStage Q parseQueryString rest).hash.getD []) ∧
      Safe ((tailStage Q parseQueryString rest).search.getD []) ∧
      Safe (tailStage Q parseQueryString rest).pathname := by
  obtain ⟨hhash, hrest⟩ := safe_cutHash h
  unfold tailStage
  dsimp only
  cases (cutHash rest).2.idxOf? questionMark with
  | none =>
    dsimp only
    split_ifs
    · exact ⟨hhash, safe_nil, hrest⟩
    · exact ⟨hhash, safe_nil, hrest⟩
  | some qm =>
    exact ⟨hhash, hrest.sublist (List.drop_sublist _ _), hrest.sublist (List.take_sublist _ _)⟩

/-- Where there is no text for the query, there is nothing in its object. -/
theorem query_tailStage (parseQueryString : Bool) (rest : JSString)
    (hsearch : truthy (tailStage Q parseQueryString rest).search = none) :
    formatQuery (tailStage Q parseQueryString rest).query = [] := by
  unfold tailStage at hsearch ⊢
  dsimp only at hsearch ⊢
  cases hqm : (cutHash rest).2.idxOf? questionMark with
  | some qm =>
    rw [hqm] at hsearch
    have hne : (cutHash rest).2.drop qm ≠ [] := by
      simpa using (List.idxOf?_eq_some_iff.mp hqm).1
    rw [truthy_some hne] at hsearch
    cases hsearch
  | none =>
    dsimp only
    split_ifs
    · exact if_neg (not_not.mpr Q.keys_empty)
    · rfl

theorem safe_startWith {c : UInt16} {s : JSString} (hc : Safe [c]) (hs : Safe s) :
    Safe (startWith c s) := by
  unfold startWith
  split_ifs
  · exact safe_cons.mpr ⟨(safe_cons.mp hc).1, hs⟩
  · exact hs

/-- Only the host matters. -/
theorem safe_urlFormat {obj : Parsed Q} (hprotocol : Safe (obj.protocol.getD []))
    (hpathname : Safe (obj.pathname.getD [])) (hsearch : Safe (obj.search.getD []))
    (hhash : Safe (obj.hash.getD []))
    (hquery : truthy obj.search = none → formatQuery obj.query = [])
    (hhost : obj.host = none → obj.hostname = none) :
    Safe (urlFormat obj) ↔ Safe (obj.host.getD []) := by
  have hsome : obj.host.or (obj.hostname.map fun hostname =>
      formatAuth obj.auth ++ hostname ++ (truthy obj.port).elim [] (colon :: ·)) = obj.host := by
    cases hobj : obj.host with
    | none =>
      rw [hhost hobj]
      rfl
    | some host => rfl
  have hquestion : Safe ((truthy obj.search).getD (if formatQuery obj.query ≠ [] then
      questionMark :: formatQuery obj.query else [])) := by
    cases htruthy : truthy obj.search with
    | some search =>
      rw [← safe_truthy, htruthy] at hsearch
      exact hsearch
    | none =>
      rw [hquery htruthy]
      exact safe_nil
  have hcolon : Safe (if obj.protocol.getD [] ≠ [] ∧ (obj.protocol.getD []).getLast? ≠ some colon
      then obj.protocol.getD [] ++ [colon] else obj.protocol.getD []) := by
    split_ifs
    · exact safe_append.mpr ⟨hprotocol, by decide⟩
    · exact hprotocol
  unfold urlFormat
  dsimp only
  rw [hsome]
  generalize (obj.slashes || _) = slashes
  have hslashes : Safe (if slashes then [slash, slash] else []) := by
    split_ifs
    · decide
    · exact safe_nil
  have hpath : Safe (if slashes then startWith slash (obj.pathname.getD []) else
      obj.pathname.getD []) := by
    split_ifs
    · exact safe_startWith (by decide) hpathname
    · exact hpathname
  rw [safe_append, safe_append, safe_append, safe_append, safe_append]
  constructor
  · exact fun h => h.1.1.1.2.2
  · intro h
    exact ⟨⟨⟨⟨hcolon, hslashes, h⟩, hpath⟩, safe_startWith (by decide) hquestion⟩,
      safe_startWith (by decide) hhash⟩

end

/-! ### The whole of it -/

section
variable {Q : QueryString} (proto : Option JSString) (slashes : Bool)

theorem safe_assemble {rest : JSString} (hproto : Safe ((proto.map toLowerCase).getD []))
    (text : Option JSString) (parseQueryString : Bool) (hrest : Safe rest) :
    Safe (assemble proto slashes (text.map fun text => (hostStage text).1)
      (tailStage Q parseQueryString rest)).href ↔
      Safe ((text.bind fun text => (pluckAuth text).1).getD []) := by
  obtain ⟨hhash, hsearch, hpathname⟩ := safe_tailStage (Q := Q) parseQueryString hrest
  have hhost : Safe (((text.map fun text => (hostStage text).1).map Host.host).getD []) ↔
      Safe ((text.bind fun text => (pluckAuth text).1).getD []) := by
    cases text with
    | none => exact Iff.rfl
    | some text => exact safe_hostStage text
  rw [← hhost]
  refine safe_urlFormat hproto ?_ hsearch hhash (query_tailStage parseQueryString rest) ?_
  · dsimp only
    split_ifs
    · exact hpathname
    · decide
    · exact safe_nil
  · cases text with
    | none => exact fun _ => rfl
    | some text => exact nofun

end

end NodeJS.Url
