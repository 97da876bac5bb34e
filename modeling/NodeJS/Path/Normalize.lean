import NodeJS.Fs.Path

/-! `path.normalize`, `path.join` and `path.resolve` of paths that are put together. -/
namespace NodeJS.Path

def normalize (path : JSString) : JSString :=
  let isAbsolute := path.head? = some slash
  let trailingSlash := path.getLast? = some slash
  let path := join (normalizeArray (pieces path) !isAbsolute)
  let path := if path = [] ∧ ¬ isAbsolute then js "." else path
  let path := if path ≠ [] ∧ trailingSlash then path ++ [slash] else path
  (if isAbsolute then [slash] else []) ++ path

def joinPaths (paths : List JSString) : JSString :=
  normalize (join (paths.filter (· ≠ [])))

/-! ### What a prefix comes to -/

/-- The parts in front meet what is left of the others. -/
theorem normal_append_eq (front back : List JSString) :
    normal (front ++ back) =
      ((normal front).1.take ((normal front).1.length - (normal back).2) ++ (normal back).1,
        (normal front).2 + ((normal back).2 - (normal front).1.length)) := by
  induction front with
  | nil => simp [normal]
  | cons part front ih =>
    rw [List.cons_append, normal_cons, normal_cons, ih]
    generalize normal front = kept at ih ⊢
    generalize normal back = rest at ih ⊢
    obtain ⟨names, up⟩ := kept
    obtain ⟨names', up'⟩ := rest
    unfold normalizeStep
    dsimp only
    by_cases hdot : part = js "."
    · rw [if_pos hdot, if_pos hdot]
    rw [if_neg hdot, if_neg hdot]
    by_cases hdots : part = js ".."
    · rw [if_pos hdots, if_pos hdots]
      simp only [Prod.mk.injEq, true_and]
      omega
    rw [if_neg hdots, if_neg hdots]
    cases up with
    | succ up =>
      rw [if_pos (by omega), if_pos (by omega)]
      simp only [Prod.mk.injEq, true_and]
      omega
    | zero =>
      rw [if_neg (not_not.mpr rfl)]
      by_cases hup : names.length < up'
      · have hnone : names.length - up' = 0 := by omega
        have hnone' : (part :: names).length - up' = 0 := by
          rw [List.length_cons]
          omega
        rw [if_pos (by omega), hnone, hnone', List.take_zero, List.take_zero, List.length_cons]
        simp only [Prod.mk.injEq, true_and]
        omega
      · have hmore : (part :: names).length - up' = names.length - up' + 1 := by
          rw [List.length_cons]
          omega
        rw [if_neg (by omega), hmore, List.take_succ_cons, List.length_cons]
        simp only [List.cons_append, Prod.mk.injEq, true_and]
        omega

/-- The names that are left do not depend on how often the front goes above itself. -/
theorem normal_append_congr {front front' : List JSString}
    (h : (normal front).1 = (normal front').1) (back : List JSString) :
    (normal (front ++ back)).1 = (normal (front' ++ back)).1 := by
  rw [normal_append_eq, normal_append_eq, h]

theorem normal_append_congr' {front front' : List JSString} (h : normal front = normal front')
    (back : List JSString) : normal (front ++ back) = normal (front' ++ back) := by
  rw [normal_append_eq, normal_append_eq, h]

theorem normal_replicate_append (k : ℕ) {names : List JSString} (h : ∀ c ∈ names, IsName c) :
    normal (List.replicate k (js "..") ++ names) = (names, k) := by
  induction k with
  | zero => exact normal_isName h
  | succ k ih =>
    rw [List.replicate_succ, List.cons_append, normal_cons, ih]
    rfl

/-! ### Paths by their parts -/

abbrev IsAbsolute (path : JSString) : Prop := path.head? = some slash

def render (isAbsolute trailingSlash : Prop) [Decidable isAbsolute] [Decidable trailingSlash]
    (parts : List JSString) : JSString :=
  let path := if parts = [] ∧ ¬ isAbsolute then js "." else join parts
  let path := if path ≠ [] ∧ trailingSlash then path ++ [slash] else path
  (if isAbsolute then [slash] else []) ++ path

/-- The parts that `normalize` leaves. -/
def normalParts (path : JSString) : List JSString :=
  normalizeArray (pieces path) !decide (IsAbsolute path)

theorem normalizeArray_eq (parts : List JSString) (allowAboveRoot : Bool) :
    normalizeArray parts allowAboveRoot =
      List.replicate (if allowAboveRoot then (normal parts).2 else 0) (js "..") ++
        (normal parts).1 := by
  cases allowAboveRoot with
  | false => rfl
  | true => rfl

/-- A part that may be left. -/
theorem part_of_mem_normalizeArray {parts : List JSString} {allowAboveRoot : Bool}
    (h : ∀ c ∈ parts, c ≠ [] ∧ slash ∉ c) :
    ∀ c ∈ normalizeArray parts allowAboveRoot, c ≠ [] ∧ slash ∉ c := by
  rw [normalizeArray_eq]
  intro c hc
  rcases List.mem_append.mp hc with hc | hc
  · rw [List.eq_of_mem_replicate hc]
    decide
  · exact (isName_of_mem_normal h c hc).part

theorem part_of_mem_normalParts (path : JSString) :
    ∀ c ∈ normalParts path, c ≠ [] ∧ slash ∉ c :=
  part_of_mem_normalizeArray (pieces_no_slash path)

theorem normalize_eq (path : JSString) :
    normalize path = render (IsAbsolute path) (path.getLast? = some slash) (normalParts path) := by
  unfold normalize render
  simp only [← join_eq_nil_iff (part_of_mem_normalParts path)]
  rfl

section
variable {isAbsolute trailingSlash : Prop} [Decidable isAbsolute] [Decidable trailingSlash]
  {parts : List JSString}

theorem pieces_join_parts (h : ∀ c ∈ parts, c ≠ [] ∧ slash ∉ c) : pieces (join parts) = parts := by
  rw [pieces_join fun c hc => (h c hc).2, List.filter_eq_self]
  exact fun c hc => by simpa using (h c hc).1

theorem head_join_parts (h : ∀ c ∈ parts, c ≠ [] ∧ slash ∉ c) : ¬ IsAbsolute (join parts) := by
  cases parts with
  | nil => exact nofun
  | cons c parts => exact head_join (h c List.mem_cons_self) parts

theorem getLast_join (h : ∀ c ∈ parts, c ≠ [] ∧ slash ∉ c) :
    (join parts).getLast? ≠ some slash := by
  induction parts with
  | nil => exact nofun
  | cons c parts ih =>
    obtain ⟨hc, hparts⟩ := List.forall_mem_cons.mp h
    rw [join_cons]
    split_ifs with hnil
    · exact fun hlast => hc.2 (List.mem_of_getLast? hlast)
    · have hne : join parts ≠ [] := fun hjoin => hnil ((join_eq_nil_iff hparts).mp hjoin)
      rw [List.getLast?_append_cons, List.getLast?_cons_of_ne_nil hne]
      exact ih hparts

theorem render_congr {isAbsolute' trailingSlash' : Prop} [Decidable isAbsolute']
    [Decidable trailingSlash'] (habs : isAbsolute ↔ isAbsolute')
    (htrailing : (parts = [] → ¬ isAbsolute) → (trailingSlash ↔ trailingSlash')) :
    render isAbsolute trailingSlash parts = render isAbsolute' trailingSlash' parts := by
  unfold render
  by_cases h : parts = [] → ¬ isAbsolute
  · simp only [habs, htrailing h]
  · rw [Classical.not_imp, not_not] at h
    obtain ⟨rfl, hroot⟩ := h
    simp [join, hroot, habs.mp hroot]

/-- Only the root has no part. -/
theorem render_root (habs : isAbsolute) : render isAbsolute trailingSlash [] = [slash] := by
  simp [render, join, habs]

def shown (parts : List JSString) : List JSString := if parts = [] then [js "."] else parts

theorem part_of_mem_shown (h : ∀ c ∈ parts, c ≠ [] ∧ slash ∉ c) :
    ∀ c ∈ shown parts, c ≠ [] ∧ slash ∉ c := by
  unfold shown
  split_ifs with hnil
  · decide
  · exact h

theorem shown_ne_nil (parts : List JSString) : shown parts ≠ [] := by
  unfold shown
  split_ifs with hnil
  · decide
  · exact hnil

theorem join_shown_ne_nil (h : ∀ c ∈ parts, c ≠ [] ∧ slash ∉ c) : join (shown parts) ≠ [] := by
  rw [ne_eq, join_eq_nil_iff (part_of_mem_shown h)]
  exact shown_ne_nil parts

theorem render_shown (h : ∀ c ∈ parts, c ≠ [] ∧ slash ∉ c) (hparts : parts = [] → ¬ isAbsolute) :
    render isAbsolute trailingSlash parts =
      (if isAbsolute then [slash] else []) ++
        (join (shown parts) ++ if trailingSlash then [slash] else []) := by
  have hpath : (if parts = [] ∧ ¬ isAbsolute then js "." else join parts) = join (shown parts) := by
    unfold shown
    by_cases hnil : parts = []
    · rw [if_pos ⟨hnil, hparts hnil⟩, if_pos hnil]
      rfl
    · rw [if_neg fun hand => hnil hand.1, if_neg hnil]
  have hne := join_shown_ne_nil h
  unfold render
  dsimp only
  rw [hpath]
  congr 1
  by_cases htrailing : trailingSlash
  · rw [if_pos ⟨hne, htrailing⟩, if_pos htrailing]
  · rw [if_neg fun hand => htrailing hand.2, if_neg htrailing, List.append_nil]

theorem isAbsolute_render (h : ∀ c ∈ parts, c ≠ [] ∧ slash ∉ c) :
    IsAbsolute (render isAbsolute trailingSlash parts) ↔ isAbsolute := by
  unfold IsAbsolute
  by_cases habs : isAbsolute
  · have hhead : (render isAbsolute trailingSlash parts).head? = some slash := by
      rw [render, if_pos habs]
      rfl
    exact iff_of_true hhead habs
  · have hjoin := head_join_parts (part_of_mem_shown h)
    have hne := join_shown_ne_nil h
    rw [render_shown h fun _ => habs, if_neg habs, List.nil_append,
      List.head?_append_of_ne_nil _ hne]
    exact iff_of_false hjoin habs

theorem pieces_render (h : ∀ c ∈ parts, c ≠ [] ∧ slash ∉ c) (hparts : parts = [] → ¬ isAbsolute) :
    pieces (render isAbsolute trailingSlash parts) = shown parts := by
  have hjoin := pieces_join_parts (part_of_mem_shown h)
  have htrailing : pieces (join (shown parts) ++ if trailingSlash then [slash] else []) =
      shown parts := by
    split_ifs
    · rw [pieces_append, hjoin, pieces_nil, List.append_nil]
    · rw [List.append_nil, hjoin]
  rw [render_shown h hparts]
  by_cases habs : isAbsolute
  · rw [if_pos habs, List.singleton_append, pieces_cons, htrailing]
  · rw [if_neg habs, List.nil_append, htrailing]

theorem getLast_render (h : ∀ c ∈ parts, c ≠ [] ∧ slash ∉ c) (hparts : parts = [] → ¬ isAbsolute) :
    (render isAbsolute trailingSlash parts).getLast? = some slash ↔ trailingSlash := by
  have hne := join_shown_ne_nil h
  rw [render_shown h hparts]
  by_cases htrailing : trailingSlash
  · rw [if_pos htrailing, ← List.append_assoc, List.getLast?_concat]
    exact iff_of_true rfl htrailing
  · rw [if_neg htrailing, List.append_nil, List.getLast?_append_of_ne_nil _ hne]
    exact iff_of_false (getLast_join (part_of_mem_shown h)) htrailing

end

/-! ### `normalize` -/

theorem isAbsolute_normalize (path : JSString) : IsAbsolute (normalize path) ↔ IsAbsolute path := by
  rw [normalize_eq]
  exact isAbsolute_render (part_of_mem_normalParts path)

theorem normal_shown (parts : List JSString) : normal (shown parts) = normal parts := by
  unfold shown
  split_ifs with hnil
  · rw [hnil]
    rfl
  · rfl

/-- The parts of a normal path are left as they are. -/
theorem normal_normalParts (path : JSString) :
    (normal (normalParts path)).1 = (normal (pieces path)).1 ∧
      (¬ IsAbsolute path → normal (normalParts path) = normal (pieces path)) := by
  have hnames := isName_of_mem_normal (pieces_no_slash path)
  unfold normalParts
  rw [normalizeArray_eq, normal_replicate_append _ hnames]
  refine ⟨rfl, fun habs => ?_⟩
  simp [habs]

theorem normal_normalize (path : JSString) :
    (normal (pieces (normalize path))).1 = (normal (pieces path)).1 ∧
      (¬ IsAbsolute path → normal (pieces (normalize path)) = normal (pieces path)) := by
  obtain ⟨hfst, hboth⟩ := normal_normalParts path
  by_cases hparts : normalParts path = [] → ¬ IsAbsolute path
  · rw [normalize_eq, pieces_render (part_of_mem_normalParts path) hparts, normal_shown]
    exact ⟨hfst, hboth⟩
  · rw [Classical.not_imp, not_not] at hparts
    obtain ⟨hnil, habs⟩ := hparts
    rw [hnil] at hfst
    rw [normalize_eq, hnil, render_root habs]
    exact ⟨hfst, fun h => absurd habs h⟩

/-- A normal path in front of others comes to what the path itself does. -/
theorem normalParts_append (path : JSString) {full full' : JSString} (back : List JSString)
    (habs : IsAbsolute full ↔ IsAbsolute path) (habs' : IsAbsolute full' ↔ IsAbsolute path)
    (hfull : pieces full = pieces (normalize path) ++ back)
    (hfull' : pieces full' = pieces path ++ back) : normalParts full = normalParts full' := by
  obtain ⟨hfst, hboth⟩ := normal_normalize path
  unfold normalParts
  rw [normalizeArray_eq, normalizeArray_eq, hfull, hfull', normal_append_congr hfst back]
  by_cases h : IsAbsolute path
  · simp [habs.mpr h, habs'.mpr h]
  · simp [mt habs.mp h, mt habs'.mp h, normal_append_congr' (hboth h) back]

theorem normalize_normalize (path : JSString) : normalize (normalize path) = normalize path := by
  have habs := isAbsolute_normalize path
  have hparts : normalParts (normalize path) = normalParts path :=
    normalParts_append path [] habs Iff.rfl (List.append_nil _).symm (List.append_nil _).symm
  rw [normalize_eq (normalize path), hparts, normalize_eq path]
  refine render_congr ?_ fun h => ?_
  · rw [← normalize_eq]
    exact habs
  · have hrelative : normalParts path = [] → ¬ IsAbsolute path := fun hnil =>
      mt habs.mpr (by simpa only [← normalize_eq] using h hnil)
    exact getLast_render (part_of_mem_normalParts path) hrelative

theorem normalize_ne_nil (path : JSString) : normalize path ≠ [] := by
  intro hnil
  have hroot := isAbsolute_normalize path
  rw [hnil] at hroot
  have hrelative : ¬ IsAbsolute path := mt hroot.mpr nofun
  have hpieces : pieces (normalize path) = shown (normalParts path) := by
    rw [normalize_eq]
    exact pieces_render (part_of_mem_normalParts path) fun _ => hrelative
  rw [hnil] at hpieces
  exact shown_ne_nil _ hpieces.symm

theorem normalize_slash {a : JSString} (ha : a ≠ []) (b : JSString) :
    normalize (normalize a ++ slash :: b) = normalize (a ++ slash :: b) := by
  have hhead : IsAbsolute (a ++ slash :: b) ↔ IsAbsolute a := by
    rw [IsAbsolute, List.head?_append_of_ne_nil _ ha]
  have hhead' : IsAbsolute (normalize a ++ slash :: b) ↔ IsAbsolute a := by
    rw [IsAbsolute, List.head?_append_of_ne_nil _ (normalize_ne_nil a)]
    exact isAbsolute_normalize a
  have hparts : normalParts (normalize a ++ slash :: b) = normalParts (a ++ slash :: b) :=
    normalParts_append a (pieces b) hhead' hhead (pieces_append _ _) (pieces_append _ _)
  rw [normalize_eq, normalize_eq (a ++ slash :: b), hparts]
  refine render_congr (hhead'.trans hhead.symm) fun _ => ?_
  rw [List.getLast?_append_cons, List.getLast?_append_cons]

theorem joinPaths_two {a : JSString} (ha : a ≠ []) (b : JSString) :
    joinPaths [a, b] = if b = [] then normalize a else normalize (a ++ slash :: b) := by
  unfold joinPaths
  split_ifs with hb
  · simp [ha, hb, join]
  · simp [ha, hb, join_cons]

theorem joinPaths_three {a b : JSString} (ha : a ≠ []) (hb : b ≠ []) (c : JSString) :
    joinPaths [a, b, c] = joinPaths [a ++ slash :: b, c] := by
  unfold joinPaths
  by_cases hc : c = []
  · simp [ha, hb, hc, join_cons]
  · simp [ha, hb, hc, join_cons]

/-- A path that is normalized, or put in front of another one, may be normalized before. -/
theorem normalize_join_laws :
    (∀ path, normalize (normalize path) = normalize path) ∧
      (∀ a b, a ≠ [] → normalize (a ++ slash :: b) = normalize (normalize a ++ slash :: b)) ∧
      ∀ a b c, a ≠ [] → b ≠ [] → joinPaths [a, b, c] = joinPaths [joinPaths [a, b], c] := by
  refine ⟨normalize_normalize, fun a b ha => (normalize_slash ha b).symm, fun a b c ha hb => ?_⟩
  have hab : a ++ slash :: b ≠ [] := List.append_ne_nil_of_left_ne_nil ha _
  have htwo : joinPaths [a, b] = normalize (a ++ slash :: b) := by rw [joinPaths_two ha, if_neg hb]
  rw [joinPaths_three ha hb, htwo, joinPaths_two hab, joinPaths_two (normalize_ne_nil _)]
  split_ifs
  · exact (normalize_normalize _).symm
  · exact (normalize_slash hab c).symm

theorem joinPaths_dots : joinPaths [js "../a", js "/b/", js "../../../c/"] =
    joinPaths [joinPaths [js "../a", js "/b/"], js "../../../c/"] :=
  normalize_join_laws.2.2 _ _ _ (by decide) (by decide)

example : joinPaths [js "../a", js "/b/", js "../../../c/"] = js "../../c/" := by decide +kernel

/-! ### `resolve` -/

theorem against_nil (base : List JSString) : against base [] = base := List.append_nil base

/-- The loop stops at an absolute path, so at the working directory if not before. -/
theorem resolveLoop_append (cwd : Cwd) (args : List JSString) (acc : JSString) :
    (resolveLoop acc (args ++ [cwd.path])).2 = true ∧
      pieces (resolveLoop acc (args ++ [cwd.path])).1 =
        args.reverse.foldl against (pieces cwd.path) ++ pieces acc := by
  induction args generalizing acc with
  | nil =>
    have hne : cwd.path ≠ [] := by
      intro hnil
      have habs := cwd.absolute
      rw [hnil] at habs
      cases habs
    rw [List.nil_append, resolveLoop, if_neg hne, if_pos cwd.absolute]
    exact ⟨rfl, pieces_append _ _⟩
  | cons path args ih =>
    rw [List.cons_append, resolveLoop, List.reverse_cons, List.foldl_append]
    dsimp only [List.foldl_cons, List.foldl_nil]
    split_ifs with hnil habs
    · rw [hnil, against_nil]
      exact ih acc
    · rw [against, if_pos habs]
      exact ⟨rfl, pieces_append _ _⟩
    · obtain ⟨hroot, hpieces⟩ := ih (path ++ slash :: acc)
      rw [against, if_neg habs, hpieces, pieces_append, List.append_assoc]
      exact ⟨hroot, rfl⟩

/-- Each path is taken from where those before it lead. -/
theorem resolve_eq (cwd : Cwd) (paths : List JSString) :
    resolve cwd.path paths = absolute (normal (paths.foldl against (pieces cwd.path))).1 := by
  obtain ⟨hroot, hpieces⟩ := resolveLoop_append cwd paths.reverse []
  rw [List.reverse_reverse, pieces_nil, List.append_nil] at hpieces
  rw [resolve_of_loop paths hroot, hpieces]

theorem part_of_mem_foldl_against {base : List JSString} (hbase : ∀ c ∈ base, c ≠ [] ∧ slash ∉ c)
    (paths : List JSString) : ∀ c ∈ paths.foldl against base, c ≠ [] ∧ slash ∉ c := by
  induction paths generalizing base with
  | nil => exact hbase
  | cons path paths ih => exact ih (isName_of_mem_against hbase path)

theorem resolve_names (cwd : Cwd) (paths : List JSString) :
    ∃ names, (∀ c ∈ names, IsName c) ∧ resolve cwd.path paths = absolute names :=
  ⟨_, isName_of_mem_normal (part_of_mem_foldl_against (pieces_no_slash cwd.path) paths),
    resolve_eq cwd paths⟩

theorem against_normal_congr {base base' : List JSString} (h : (normal base).1 = (normal base').1)
    (path : JSString) : (normal (against base path)).1 = (normal (against base' path)).1 := by
  unfold against
  split_ifs
  · rfl
  · exact normal_append_congr h _

theorem resolve_snoc (cwd : Cwd) (paths : List JSString) (path : JSString) :
    resolve cwd.path (paths ++ [path]) =
      resolve cwd.path [resolve cwd.path paths, path] := by
  have hbase := part_of_mem_foldl_against (pieces_no_slash cwd.path) paths
  have hnames := isName_of_mem_normal hbase
  rw [resolve_eq, resolve_eq cwd paths, resolve_two cwd.path rfl, resolved,
    pieces_absolute hnames, List.foldl_append]
  exact congrArg absolute (against_normal_congr (by rw [normal_isName hnames]) path)

theorem absolute_parts {names : List JSString} (h : ∀ c ∈ names, IsName c) :
    absolute names ≠ [slash] →
      (∀ c ∈ (absolute names).tail.splitOn slash, c ≠ [] ∧ c ≠ js "." ∧ c ≠ js "..") ∧
        (absolute names).getLast? ≠ some slash := by
  intro hroot
  have hparts : ∀ c ∈ names, c ≠ [] ∧ slash ∉ c := fun c hc => (h c hc).part
  have hnames : names ≠ [] := by
    rintro rfl
    exact hroot rfl
  have hjoin : join names ≠ [] := fun hjoin => hnames ((join_eq_nil_iff hparts).mp hjoin)
  unfold absolute
  constructor
  · have hsplit : (join names).splitOn slash = names :=
      List.splitOn_intercalate slash (fun c hc => (hparts c hc).2) hnames
    rw [List.tail_cons, hsplit]
    exact fun c hc => ⟨(h c hc).ne_nil, (h c hc).ne_dot, (h c hc).ne_dots⟩
  · rw [List.getLast?_cons_of_ne_nil hjoin]
    exact getLast_join hparts

/-- What `resolve` returns is absolute and normal, and may be resolved before. -/
theorem resolve_laws (cwd : Cwd) (paths : List JSString) :
    (resolve cwd.path paths).head? = some slash ∧
      (resolve cwd.path paths ≠ [slash] →
        (∀ c ∈ (resolve cwd.path paths).tail.splitOn slash,
          c ≠ [] ∧ c ≠ js "." ∧ c ≠ js "..") ∧
          (resolve cwd.path paths).getLast? ≠ some slash) ∧
      ∀ path, resolve cwd.path (paths ++ [path]) =
        resolve cwd.path [resolve cwd.path paths, path] := by
  refine ⟨?_, ?_, resolve_snoc cwd paths⟩
  · rw [resolve_eq]
    rfl
  · obtain ⟨names, hnames, hresolve⟩ := resolve_names cwd paths
    rw [hresolve]
    exact absolute_parts hnames

end NodeJS.Path
