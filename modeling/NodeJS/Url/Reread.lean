import NodeJS.Url.Href

/-! What a second reading finds in the host of an `href`. -/
namespace NodeJS.Url

/-! ### Hostnames that are accepted as they are -/

/-- Not too long, of valid parts and in small letters. -/
def Stable (name : JSString) : Prop :=
  name.length ≤ hostnameMaxLen ∧ (∀ part ∈ name.splitOn dot, ValidPart part) ∧
    toLowerCase name = name

theorem lowerUnit_lowerUnit (c : UInt16) : lowerUnit (lowerUnit c) = lowerUnit c := by
  by_cases hupper : 0x41 ≤ c ∧ c ≤ 0x5A
  · have hlow : ¬ (0x41 ≤ c + 0x20 ∧ c + 0x20 ≤ 0x5A) := by
      simp only [UInt16.le_iff_toNat_le, UInt16.toNat_add, UInt16.reduceToNat] at hupper ⊢
      omega
    have hlower : lowerUnit c = c + 0x20 := if_pos hupper
    rw [hlower]
    exact if_neg hlow
  · have hsame : lowerUnit c = c := if_neg hupper
    rw [hsame, hsame]

theorem toLowerCase_idem (s : JSString) : toLowerCase (toLowerCase s) = toLowerCase s := by
  unfold toLowerCase
  rw [List.map_map]
  exact List.map_congr_left fun c _ => lowerUnit_lowerUnit c

theorem toLowerCase_intercalate (parts : List JSString) :
    toLowerCase ([dot].intercalate parts) = [dot].intercalate (parts.map toLowerCase) := by
  induction parts with
  | nil => rfl
  | cons part parts ih =>
    cases parts with
    | nil => rw [List.map_singleton, List.intercalate_singleton, List.intercalate_singleton]
    | cons next parts =>
      rw [List.intercalate_cons_cons, toLowerCase_append, toLowerCase_append, ih]
      exact List.intercalate_cons_cons.symm

theorem validPart_toLowerCase {part : JSString} (h : ValidPart part) :
    ValidPart (toLowerCase part) := by
  refine h.imp (fun hnil => by rw [hnil]; rfl) fun hpart => ?_
  cases part with
  | nil => cases hpart
  | cons c part =>
    simp only [hostnamePartPattern, Bool.and_eq_true, decide_eq_true_eq, List.all_eq_true] at hpart
    obtain ⟨⟨hc, hlength⟩, hall⟩ := hpart
    simp only [toLowerCase, List.map_cons, hostnamePartPattern, Bool.and_eq_true,
      decide_eq_true_eq, List.all_eq_true, List.length_map, List.forall_mem_map]
    exact ⟨⟨isAlnum_lowerUnit hc, hlength⟩, fun d hd => isNameChar_lowerUnit (hall d hd)⟩

theorem dot_not_mem {part : JSString} (h : ValidPart part) : dot ∉ part := by
  rcases h with rfl | hpart
  · exact List.not_mem_nil
  · exact fun hmem => absurd (nameChar_of_pattern hpart dot hmem) (by decide)

theorem validPart_splitOn {parts : List JSString} (h : ∀ part ∈ parts, ValidPart part) :
    ∀ part ∈ ([dot].intercalate parts).splitOn dot, ValidPart part := by
  by_cases hnil : parts = []
  · rw [hnil]
    intro part hpart
    exact .inl (by simpa using hpart)
  · rwa [List.splitOn_intercalate dot (fun part hpart => dot_not_mem (h part hpart)) hnil]

theorem stable_intercalate {parts : List JSString} (h : ∀ part ∈ parts, ValidPart part)
    (hlength : ([dot].intercalate parts).length ≤ hostnameMaxLen) :
    Stable (toLowerCase ([dot].intercalate parts)) := by
  refine ⟨by rwa [length_toLowerCase], ?_, toLowerCase_idem _⟩
  rw [toLowerCase_intercalate]
  exact validPart_splitOn (List.forall_mem_map.mpr fun part hpart =>
    validPart_toLowerCase (h part hpart))

theorem hostnamePartPattern_bit {part bit more : JSString}
    (h : hostnamePartStart part = some (bit, more)) : hostnamePartPattern bit = true := by
  have hname := nameChar_of_start h
  cases part with
  | nil => cases h
  | cons c part =>
    unfold hostnamePartStart at h
    dsimp only at h
    split_ifs at h with hmatch
    obtain ⟨rfl, -⟩ := Prod.mk.inj (Option.some.inj h)
    obtain ⟨-, hbit⟩ := List.forall_mem_cons.mp hname
    simp only [hostnamePartPattern, Bool.and_eq_true, decide_eq_true_eq, List.all_eq_true]
    exact ⟨⟨((Bool.and_eq_true _ _).mp hmatch).1, List.length_take_le _ _⟩, hbit⟩

/-- What is accepted of a hostname is accepted again. -/
theorem stable_validate (name rest : JSString) :
    Stable (toLowerCase (validate name rest).1) := by
  by_cases hlong : hostnameMaxLen < name.length
  · rw [validate_long hlong]
    exact @stable_intercalate [] (List.forall_mem_nil _) (Nat.zero_le _)
  have hlength := Nat.le_of_not_gt hlong
  rcases name_cases name with hall | ⟨valid, part, notHost, hfirst⟩
  · have hname : [dot].intercalate (name.splitOn dot) = name := List.intercalate_splitOn dot
    have hstable := stable_intercalate hall (by rwa [hname])
    rw [validate_valid hlength hall]
    rwa [hname] at hstable
  · have hname : name = [dot].intercalate (valid ++ part :: notHost) := by
      rw [← hfirst.1, List.intercalate_splitOn]
    cases hstart : hostnamePartStart part with
    | none =>
      have hne : part ≠ [] := fun hnil => hfirst.2.2 (.inl hnil)
      have hshort := length_intercalate_lt [dot] valid hne notHost
      rw [← hname] at hshort
      rw [validate_no_start hlength hfirst hstart]
      exact stable_intercalate hfirst.2.1 (by omega)
    | some found =>
      obtain ⟨bit, more⟩ := found
      have hcut := intercalate_cut [dot] valid bit more notHost
      rw [← hostnamePartStart_some hstart, ← hname] at hcut
      have hshort := congrArg List.length hcut
      rw [List.length_append] at hshort
      rw [validate_start hlength hfirst hstart]
      refine stable_intercalate ?_ (by omega)
      intro x hx
      rcases List.mem_append.mp hx with hx | hx
      · exact hfirst.2.1 x hx
      · rw [List.mem_singleton.mp hx]
        exact .inr (hostnamePartPattern_bit hstart)

theorem validate_of_stable {name : JSString} (h : Stable name) (rest : JSString) :
    validate name rest = (name, rest) := validate_valid h.1 h.2.1 rest

/-! ### Ports -/

/-- What the parts of a host are in the text. -/
def authText (auth : Option JSString) : JSString := (truthy auth).elim [] (· ++ [atSign])

def portText (port : Option JSString) : JSString := (truthy port).elim [] (colon :: ·)

/-- A port that `parseHost` finds, if it finds one. -/
def IsPort (port : Option JSString) : Prop :=
  ∀ digits ∈ port, digits ≠ [] ∧ ∀ c ∈ digits, isDigit c = true

theorem portPattern_suffix {host port : JSString} (h : portPattern host = some port) :
    port <:+ host ∧ port.tail ≠ [] := by
  unfold portPattern at h
  dsimp only at h
  split_ifs at h with hmatch
  obtain ⟨hne, hcolon⟩ := hmatch
  obtain rfl := Option.some.inj h
  refine ⟨?_, hne⟩
  have hfront := List.suffix_iff_eq_append.mp (List.rtakeWhile_suffix isDigit host)
  obtain ⟨init, hinit⟩ := List.getLast?_eq_some_iff.mp hcolon
  rw [hinit, List.append_assoc] at hfront
  exact ⟨init, hfront⟩

theorem isPort_parseHost (host : JSString) : IsPort (parseHost host).1 := by
  intro digits hdigits
  have hall := digit_of_parseHost host
  have hdigits : (parseHost host).1 = some digits := hdigits
  rw [hdigits] at hall
  refine ⟨?_, hall⟩
  unfold parseHost at hdigits
  cases hport : portPattern host with
  | none =>
    rw [hport] at hdigits
    cases hdigits
  | some port =>
    rw [hport] at hdigits
    obtain rfl := Option.some.inj hdigits
    exact (portPattern_suffix hport).2

/-- The name and the port are all of the host. -/
theorem parseHost_append (host : JSString) :
    (parseHost host).2.getD [] ++ portText (parseHost host).1 = host := by
  have hname : ∀ s : JSString, (if s = [] then none else some s).getD [] = s := by
    intro s
    split_ifs with hs
    · exact hs.symm
    · rfl
  unfold parseHost portText
  cases hport : portPattern host with
  | none => simpa [truthy] using hname host
  | some port =>
    obtain ⟨hsuffix, hne⟩ := portPattern_suffix hport
    obtain ⟨digits, rfl, -⟩ := portPattern_some hport
    dsimp only
    rw [hname, truthy_some hne, Option.elim_some]
    exact List.suffix_iff_eq_append.mp hsuffix

/-- And they are found in it. -/
theorem parseHost_name {name : JSString} (hname : colon ∉ name) {port : Option JSString}
    (hport : IsPort port) :
    (parseHost (name ++ portText port)).1 = port ∧
      (parseHost (name ++ portText port)).2.getD [] = name := by
  have hgetD : (if name = [] then none else some name).getD [] = name := by
    split_ifs with hs
    · exact hs.symm
    · rfl
  cases port with
  | none =>
    have hnone : portPattern name = none := by
      cases hfind : portPattern name with
      | none => rfl
      | some port =>
        obtain ⟨digits, rfl, -⟩ := portPattern_some hfind
        exact absurd ((portPattern_suffix hfind).1.mem List.mem_cons_self) hname
    have happend : name ++ portText none = name := List.append_nil name
    unfold parseHost
    rw [happend, hnone]
    exact ⟨rfl, hgetD⟩
  | some digits =>
    obtain ⟨hne, hdigits⟩ := hport digits rfl
    have htext : portText (some digits) = colon :: digits := by
      rw [portText, truthy_some hne]
      rfl
    have htake : (name ++ colon :: digits).rtakeWhile isDigit = digits := by
      rw [List.rtakeWhile, List.reverse_append, List.reverse_cons, List.append_assoc,
        List.takeWhile_append_of_pos fun c hc => hdigits c (List.mem_reverse.mp hc),
        List.singleton_append, List.takeWhile_cons_of_neg (by decide), List.append_nil,
        List.reverse_reverse]
    have hlength : (name ++ colon :: digits).length - digits.length = name.length + 1 := by
      rw [List.length_append, List.length_cons]
      omega
    have hsome : portPattern (name ++ colon :: digits) = some (colon :: digits) := by
      unfold portPattern
      dsimp only
      rw [htake, hlength, List.take_length_add_append]
      exact if_pos ⟨hne, List.getLast?_concat⟩
    have hfront : (name ++ colon :: digits).take
        ((name ++ colon :: digits).length - (colon :: digits).length) = name := by
      rw [List.length_append, Nat.add_sub_cancel, List.take_left]
    unfold parseHost
    rw [htext, hsome]
    dsimp only
    rw [hfront]
    exact ⟨rfl, hgetD⟩

/-! ### Where the host ends -/

/-- The end of the text, or a character that ends a host. -/
def IsTail (rest : JSString) : Prop := ∀ c ∈ rest.head?, nonHostChars.contains c = true

theorem cutHost_eq (rest : JSString) : cutHost rest =
    (rest.takeWhile fun c => !nonHostChars.contains c,
      rest.dropWhile fun c => !nonHostChars.contains c) := by
  have hfst : (cutHost rest).1 = rest.takeWhile fun c => !nonHostChars.contains c := by
    rw [← take_findIdx, ← firstNonHost_eq, cutHost]
    cases firstNonHost rest with
    | none => exact List.take_length.symm
    | some first => rfl
  have happend : (cutHost rest).1 ++ (cutHost rest).2 = rest := by
    unfold cutHost
    cases firstNonHost rest with
    | none => exact List.append_nil rest
    | some first => exact List.take_append_drop first rest
  refine Prod.ext hfst (@List.append_cancel_left _ (cutHost rest).1 _ _ ?_)
  rw [happend, hfst]
  exact List.takeWhile_append_dropWhile.symm

/-- Where a run of characters of a kind ends. -/
theorem span_append {p : UInt16 → Bool} {x rest : JSString} (hx : ∀ c ∈ x, p c = true)
    (hrest : ∀ c ∈ rest.head?, p c = false) :
    (x ++ rest).takeWhile p = x ∧ (x ++ rest).dropWhile p = rest := by
  rw [List.takeWhile_append_of_pos hx, List.dropWhile_append_of_pos hx]
  cases rest with
  | nil => exact ⟨List.append_nil x, rfl⟩
  | cons c rest =>
    have hc : ¬ p c = true := by
      rw [hrest c rfl]
      decide
    rw [List.takeWhile_cons_of_neg hc, List.dropWhile_cons_of_neg hc, List.append_nil]
    exact ⟨rfl, rfl⟩

theorem cutHost_append {x rest : JSString} (hx : ∀ c ∈ x, nonHostChars.contains c = false)
    (hrest : IsTail rest) : cutHost (x ++ rest) = (x, rest) := by
  obtain ⟨htake, hdrop⟩ := @span_append (fun c => !nonHostChars.contains c) x rest
    (fun c hc => by rw [hx c hc]; rfl) fun c hc => by rw [hrest c hc]; rfl
  rw [cutHost_eq, htake, hdrop]

theorem cutHost_spec (rest : JSString) :
    rest = (cutHost rest).1 ++ (cutHost rest).2 ∧
      (∀ c ∈ (cutHost rest).1, nonHostChars.contains c = false) ∧ IsTail (cutHost rest).2 := by
  rw [cutHost_eq]
  refine ⟨List.takeWhile_append_dropWhile.symm, fun c hc => ?_, fun c hc => ?_⟩
  · simpa using List.mem_takeWhile_imp hc
  · have hnot := List.head?_dropWhile_not (fun c => !nonHostChars.contains c) rest
    rw [Option.mem_def.mp hc] at hnot
    exact (Bool.not_eq_false' _).mp hnot

theorem isTail_tidy {rest : JSString} (h : IsTail rest) : IsTail (tidy rest) := by
  cases rest with
  | nil => exact h
  | cons c rest =>
    rw [tidy_cons]
    split_ifs with hc hdelim
    · intro d hd
      obtain rfl := Option.some.inj hd
      decide
    · exact nofun
    · intro d hd
      exact h d hd

theorem Rooted.isTail {rest : JSString} (h : Rooted rest) : IsTail rest := by
  intro c hc
  rcases h c hc with rfl | rfl | rfl <;> decide

/-- What goes into the path begins with a slash. -/
theorem validate_snd (name rest : JSString) :
    (validate name rest).2 = rest ∨ ∃ more, (validate name rest).2 = slash :: more := by
  unfold validate
  split_ifs with hlong
  · exact .inl rfl
  · cases hfind : firstInvalid [] (name.splitOn dot) with
    | none => exact .inl rfl
    | some found =>
      obtain ⟨valid, part, notHost⟩ := found
      dsimp only
      split_ifs
      · exact .inr ⟨_, rfl⟩
      · exact .inl rfl

theorem isTail_validate (name : JSString) {rest : JSString} (h : IsTail rest) :
    IsTail (validate name rest).2 := by
  rcases validate_snd name rest with hsame | ⟨more, hmore⟩
  · rwa [hsame]
  · rw [hmore]
    intro c hc
    obtain rfl := Option.some.inj hc
    decide

/-! ### A host that is built from its parts -/

/-- A hostname has no character that ends it, that ends an auth, or that a port begins with. -/
theorem hostChar_of_stable {name : JSString} (h : Stable name) :
    ∀ c ∈ name, isHostChar c = true := by
  have hname : [dot].intercalate (name.splitOn dot) = name := List.intercalate_splitOn dot
  rw [← hname]
  exact hostChar_of_valid h.2.1

theorem not_mem_of_stable {name : JSString} (h : Stable name) {c : UInt16}
    (hc : isHostChar c = false) : c ∉ name := fun hmem => by
  rw [hostChar_of_stable h c hmem] at hc
  cases hc

/-- The characters of a name and a port. -/
theorem host_chars {name : JSString} (hname : Stable name) {port : Option JSString}
    (hport : IsPort port) : ∀ c ∈ name ++ portText port,
      nonHostChars.contains c = false ∧ c ≠ atSign := by
  have hclass : ∀ d ∈ atSign :: nonHostChars,
      (isHostChar d || isDigit d || d == colon) = false := by decide
  intro c hc
  have hchar : (isHostChar c || isDigit c || c == colon) = true := by
    rcases List.mem_append.mp hc with hc | hc
    · rw [hostChar_of_stable hname c hc, Bool.true_or, Bool.true_or]
    · cases port with
      | none => cases hc
      | some digits =>
        obtain ⟨hne, hdigits⟩ := hport digits rfl
        rw [portText, truthy_some hne] at hc
        rcases List.mem_cons.mp hc with rfl | hc
        · decide
        · rw [hdigits c hc, Bool.or_true, Bool.true_or]
  have hnot : c ∉ atSign :: nonHostChars := fun hmem => by
    rw [hclass c hmem] at hchar
    cases hchar
  obtain ⟨hat, hhost⟩ := not_or.mp (mt List.mem_cons.mpr hnot)
  exact ⟨Bool.eq_false_iff.mpr (mt List.contains_iff_mem.mp hhost), hat⟩

theorem authChar_of_host {c : UInt16} (h : nonHostChars.contains c = false ∧ c ≠ atSign) :
    nonAuthChars.contains c = false := by
  have hall : ∀ d ∈ nonAuthChars, d = atSign ∨ d ∈ nonHostChars := by decide
  refine Bool.eq_false_iff.mpr fun hmem => ?_
  rcases hall c (List.contains_iff_mem.mp hmem) with hat | hhost
  · exact h.2 hat
  · rw [List.contains_iff_mem.mpr hhost] at h
    cases h.1

/-- No auth begins with a character that an auth cannot have. -/
theorem pluckAuth_of_head {rest : JSString}
    (h : ∀ c ∈ rest.head?, nonAuthChars.contains c = true ∧ c ≠ atSign) :
    (pluckAuth rest).1 = none := by
  rcases pluckAuth_cases rest with hnone | ⟨user, more, rfl, huser, -⟩
  · rw [hnone]
  · cases user with
    | nil => exact absurd rfl (h atSign rfl).2
    | cons c user => exact absurd (h c rfl).1 (by rw [huser c List.mem_cons_self]; decide)

/-- The text of a host is read as that host, where the auth is found. -/
theorem hostStage_text {auth : Option JSString} {name : JSString} (hname : Stable name)
    {port : Option JSString} (hport : IsPort port) {text rest : JSString} (hrest : IsTail rest)
    (hauth : pluckAuth text = (auth, name ++ portText port ++ rest)) :
    hostStage text = (⟨auth, authText auth ++ name ++ portText port, port, name⟩, rest) := by
  have hcolon : colon ∉ name := not_mem_of_stable hname (by decide)
  obtain ⟨hfound, hgiven⟩ := parseHost_name hcolon hport
  unfold hostStage
  rw [hauth]
  dsimp only
  rw [cutHost_append (fun c hc => (host_chars hname hport c hc).1) hrest]
  dsimp only
  rw [hfound, hgiven, validate_of_stable hname, hname.2.2]
  rfl

def givenPort (text : JSString) : Option JSString :=
  (parseHost (cutHost (pluckAuth text).2).1).1

/-- What is accepted of the hostname, in small letters. -/
def acceptedName (text : JSString) : JSString :=
  toLowerCase (validate (givenName text) (afterHost text)).1

theorem hostStage_eq (text : JSString) : hostStage text =
    (⟨(pluckAuth text).1, authText (pluckAuth text).1 ++ acceptedName text ++
      portText (givenPort text), givenPort text, acceptedName text⟩,
      (validate (givenName text) (afterHost text)).2) := rfl

theorem stable_acceptedName (text : JSString) : Stable (acceptedName text) := stable_validate _ _

theorem isPort_givenPort (text : JSString) : IsPort (givenPort text) := isPort_parseHost _

theorem isTail_hostStage (text : JSString) : IsTail (hostStage text).2 :=
  isTail_validate _ (cutHost_spec (pluckAuth text).2).2.2

theorem pluckAuth_of_none {text : JSString} (h : (pluckAuth text).1 = none) :
    pluckAuth text = (none, text) := by
  rcases pluckAuth_cases text with hnone | ⟨user, more, -, -, hsome⟩
  · exact hnone
  · rw [hsome] at h
    cases h

theorem pluckAuth_append_some {x rest user more : JSString}
    (hx : ∀ c ∈ x, nonAuthChars.contains c = false) (h : pluckAuth rest = (some user, more)) :
    pluckAuth (x ++ rest) = (some (x ++ user), more) := by
  rcases pluckAuth_cases rest with hnone | ⟨user', more', rfl, huser, hsome⟩
  · rw [hnone] at h
    cases h
  · rw [hsome] at h
    obtain ⟨huser', rfl⟩ := Prod.mk.inj h
    obtain rfl := Option.some.inj huser'
    rw [← List.append_assoc, pluckAuth_append (List.forall_mem_append.mpr ⟨hx, huser⟩)]

theorem pluckAuth_append_none {x rest : JSString}
    (hx : ∀ c ∈ x, nonAuthChars.contains c = false) (h : (pluckAuth rest).1 = none) :
    (pluckAuth (x ++ rest)).1 = none := by
  rcases pluckAuth_cases (x ++ rest) with hnone | ⟨user, more, happend, huser, -⟩
  · rw [hnone]
  · rcases List.append_eq_append_iff.mp happend with ⟨y, rfl, rfl⟩ | ⟨y, rfl, hy⟩
    · rw [pluckAuth_append (List.forall_mem_append.mp huser).2] at h
      cases h
    · cases y with
      | nil =>
        have hsome : pluckAuth (atSign :: more) = (some [], more) :=
          @pluckAuth_append [] (List.forall_mem_nil _) more
        rw [List.nil_append] at hy
        rw [← hy, hsome] at h
        cases h
      | cons c y =>
        obtain ⟨rfl, -⟩ := List.cons_eq_cons.mp hy
        exact absurd (hx atSign (by simp)) (by decide)

/-- The auth of a cleaned text is the cleaned auth. -/
theorem pluckAuth_tidy_some {rest user more : JSString} (h : pluckAuth rest = (some user, more)) :
    pluckAuth (tidy rest) = (some (tidy user), tidy more) := by
  rcases pluckAuth_cases rest with hnone | ⟨user', more', rfl, huser, hsome⟩
  · rw [hnone] at h
    cases h
  · rw [hsome] at h
    obtain ⟨huser', rfl⟩ := Prod.mk.inj h
    obtain rfl := Option.some.inj huser'
    have hdelim : ∀ c ∈ user', delims.contains c = false := by
      intro c hc
      refine Bool.eq_false_iff.mpr fun hmem => ?_
      have hauth : nonAuthChars.contains c = true :=
        List.contains_iff_mem.mpr (List.mem_append_right _ (List.contains_iff_mem.mp hmem))
      rw [huser c hc] at hauth
      cases hauth
    have htidy : ∀ c ∈ tidy user', nonAuthChars.contains c = false := by
      intro c hc
      rcases mem_tidy hc with hc | hc
      · have hall : ∀ d ∈ js "%27", nonAuthChars.contains d = false := by decide
        exact hall c hc
      · exact huser c hc
    have hat : tidy (atSign :: more') = atSign :: tidy more' := by
      rw [tidy_cons, if_neg (by decide), if_neg (by decide)]
    rw [tidy_append hdelim, hat, pluckAuth_append htidy]

theorem pluckAuth_tidy_none {rest : JSString} (h : (pluckAuth rest).1 = none) :
    (pluckAuth (tidy rest)).1 = none := by
  rcases pluckAuth_cases (tidy rest) with hnone | ⟨user, more, htidy, huser, -⟩
  · rw [hnone]
  · obtain ⟨x, z, rfl, -, -, hx⟩ := tidy_eq_split (by decide) (by decide) htidy
    have hauth : ∀ c ∈ x, nonAuthChars.contains c = false := by
      intro c hc
      rcases hx c hc with rfl | hc
      · decide
      · exact huser c hc
    rw [pluckAuth_append hauth] at h
    cases h

/-- The auth of a text that has one with something in it. -/
theorem authText_cases (text : JSString) :
    truthy (pluckAuth text).1 = none ∧ authText (pluckAuth text).1 = [] ∨
      ∃ user, (pluckAuth text).1 = some user ∧ user ≠ [] ∧
        (∀ c ∈ user, nonAuthChars.contains c = false) ∧
        authText (pluckAuth text).1 = user ++ [atSign] := by
  rcases pluckAuth_cases text with hnone | ⟨user, more, -, huser, hsome⟩
  · rw [hnone]
    exact .inl ⟨rfl, rfl⟩
  · rw [hsome]
    by_cases hnil : user = []
    · rw [hnil]
      exact .inl ⟨rfl, rfl⟩
    · refine .inr ⟨user, rfl, hnil, huser, ?_⟩
      rw [authText, truthy_some hnil]
      rfl

/-- The host of a text is found again as it is, if no other auth is found. -/
theorem hostStage_again (text : JSString) {rest : JSString} (hrest : IsTail rest)
    (hnone : truthy (pluckAuth text).1 = none →
      (pluckAuth ((hostStage text).1.host ++ rest)).1 = none) :
    (hostStage ((hostStage text).1.host ++ rest)).1.host = (hostStage text).1.host ∧
      (hostStage ((hostStage text).1.host ++ rest)).1.hostname = (hostStage text).1.hostname ∧
      (hostStage ((hostStage text).1.host ++ rest)).2 = rest := by
  have hname := stable_acceptedName text
  have hport := isPort_givenPort text
  rw [hostStage_eq text] at hnone ⊢
  dsimp only at hnone ⊢
  rcases authText_cases text with ⟨hfalsy, hauth⟩ | ⟨user, hsome, hne, huser, hauth⟩
  · rw [hauth, List.nil_append] at hnone ⊢
    rw [hostStage_text hname hport hrest (pluckAuth_of_none (hnone hfalsy))]
    exact ⟨rfl, rfl, rfl⟩
  · have hpluck : pluckAuth (authText (pluckAuth text).1 ++ acceptedName text ++
        portText (givenPort text) ++ rest) =
          (some user, acceptedName text ++ portText (givenPort text) ++ rest) := by
      rw [hauth, ← pluckAuth_append huser]
      simp only [List.append_assoc, List.cons_append, List.nil_append]
    rw [hostStage_text hname hport hrest hpluck, hsome]
    exact ⟨rfl, rfl, rfl⟩

/-- Behind a slash no auth is looked for. -/
theorem pluckAuth_rooted {text rest : JSString} (hrest : Rooted rest)
    (hfalsy : truthy (pluckAuth text).1 = none) :
    (pluckAuth ((hostStage text).1.host ++ rest)).1 = none := by
  have hauth : authText (pluckAuth text).1 = [] := by rw [authText, hfalsy]; rfl
  have hhost := host_chars (stable_acceptedName text) (isPort_givenPort text)
  rw [hostStage_eq text]
  dsimp only
  rw [hauth, List.nil_append]
  refine pluckAuth_append_none (fun c hc => authChar_of_host (hhost c hc))
    (pluckAuth_of_head fun c hc => ?_)
  rcases hrest c hc with rfl | rfl | rfl <;> decide

/-! ### Texts that are left as they are -/

/-- The name in front is accepted as it is, and no slash has to be put behind the host. -/
def CleanHost (slashed : Bool) (rest : JSString) : Prop :=
  Stable ((parseHost (cutHost rest).1).2.getD []) ∧ (slashed = true → Rooted (cutHost rest).2)

/-- The same behind a user, who may be missing but not empty. -/
def Clean (slashed : Bool) (text : JSString) : Prop :=
  (pluckAuth text).1 ≠ some [] ∧ CleanHost slashed (pluckAuth text).2

def tailOf (slashed : Bool) (rest : JSString) : JSString :=
  if slashed then rooted false (tidy rest) else tidy rest

theorem isTail_tailOf (slashed : Bool) {rest : JSString} (h : IsTail rest) :
    IsTail (tailOf slashed rest) := by
  cases slashed with
  | false => exact isTail_tidy h
  | true => exact (rooted_spec false (tidy rest)).isTail

theorem rooted_tailOf (rest : JSString) : Rooted (tailOf true rest) := rooted_spec false (tidy rest)

theorem tailOf_eq {slashed : Bool} {rest : JSString} (hsafe : Safe rest)
    (h : slashed = true → Rooted rest) : tailOf slashed rest = rest := by
  unfold tailOf
  rw [tidy_safe hsafe]
  cases slashed with
  | false => rfl
  | true => exact rooted_of_spec (h rfl)

/-- The host and what follows it are the text, if there is nothing to change in it. -/
theorem hostStage_eq_iff {text : JSString} (hsafe : Safe text) (slashed : Bool) :
    (hostStage text).1.host ++ tailOf slashed (hostStage text).2 = text ↔ Clean slashed text := by
  obtain ⟨hrest, hchars, htail⟩ := cutHost_spec (pluckAuth text).2
  have hparts := parseHost_append (cutHost (pluckAuth text).2).1
  have hport := isPort_parseHost (cutHost (pluckAuth text).2).1
  -- the text with the auth cut off
  have hpluck : (pluckAuth text).1 = some [] ∧ text = atSign :: (pluckAuth text).2 ∨
      (pluckAuth text).1 ≠ some [] ∧
        text = authText (pluckAuth text).1 ++ (pluckAuth text).2 := by
    rcases pluckAuth_cases text with hnone | ⟨user, more, htext, -, hsome⟩
    · rw [hnone]
      exact .inr ⟨nofun, rfl⟩
    · rw [hsome, htext]
      by_cases huser : user = []
      · rw [huser]
        exact .inl ⟨rfl, rfl⟩
      · refine .inr ⟨fun h => huser (Option.some.inj h), ?_⟩
        rw [authText, truthy_some huser]
        simp
  unfold hostStage Clean CleanHost
  dsimp only
  generalize pluckAuth text = plucked at hpluck hrest hchars htail hparts hport ⊢
  obtain ⟨auth, rest⟩ := plucked
  generalize hcut : cutHost rest = cut at hrest hchars htail hparts hport ⊢
  obtain ⟨host, after⟩ := cut
  dsimp only at hpluck hrest hchars htail hparts hport ⊢
  have hstable := stable_validate ((parseHost host).2.getD []) after
  have htail' := isTail_tailOf slashed (isTail_validate ((parseHost host).2.getD []) htail)
  generalize hvalidate : validate ((parseHost host).2.getD []) after = validated at hstable htail' ⊢
  obtain ⟨accepted, rest'⟩ := validated
  dsimp only at hstable htail' ⊢
  have hhost := host_chars hstable hport
  have hreread := cutHost_append (fun c hc => (hhost c hc).1) htail'
  constructor
  · intro heq
    have hbuilt : authText auth ++ (toLowerCase accepted ++ portText (parseHost host).1 ++
        tailOf slashed rest') = text := by
      rw [← heq, ← List.append_assoc, ← List.append_assoc]
      rfl
    rcases hpluck with ⟨rfl, htext⟩ | ⟨hne, htext⟩
    · -- an empty auth leaves no trace
      have hat : toLowerCase accepted ++ portText (parseHost host).1 ++ tailOf slashed rest' =
          atSign :: rest := hbuilt.trans htext
      have hmem : atSign ∈ (cutHost (atSign :: rest)).1 := by
        rw [cutHost_eq, List.takeWhile_cons_of_pos (by decide)]
        exact List.mem_cons_self
      rw [← hat, hreread] at hmem
      exact absurd rfl (hhost atSign hmem).2
    · have hsame : toLowerCase accepted ++ portText (parseHost host).1 ++ tailOf slashed rest' =
          rest := List.append_cancel_left (hbuilt.trans htext)
      have hcolon : colon ∉ toLowerCase accepted := not_mem_of_stable hstable (by decide)
      rw [← hsame, hreread] at hcut
      obtain ⟨hhostText, hafter⟩ := Prod.mk.inj hcut
      refine ⟨hne, ?_, fun hslashed => ?_⟩
      · rw [← hhostText, (parseHost_name hcolon hport).2]
        exact hstable
      · rw [← hafter, hslashed]
        exact rooted_tailOf rest'
  · rintro ⟨hne, hname, hrooted⟩
    have hauth := (hpluck.resolve_left fun h => hne h.1).2
    rw [validate_of_stable hname] at hvalidate
    obtain ⟨rfl, rfl⟩ := Prod.mk.inj hvalidate
    have hsafe' : Safe after := by
      rw [hauth, hrest, ← List.append_assoc] at hsafe
      exact (safe_append.mp hsafe).2
    have happend : authText auth ++ (parseHost host).2.getD [] ++ portText (parseHost host).1 ++
        after = text := by
      rw [List.append_assoc (authText auth), hparts, List.append_assoc, ← hrest, hauth]
    rw [hname.2.2, tailOf_eq hsafe' hrooted]
    exact happend

end NodeJS.Url
