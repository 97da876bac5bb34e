import NodeJS.Fs.Scan
import NodeJS.Path.Split

/-! Paths with line terminators, which `.` does not match. -/
namespace NodeJS.Path
open Lib Lib.Regex
open NodeJS.Fs (Part partAt visible)

/-! ### `splitPathRe` -/

/-- The text that `.` must match. -/
def beforeDot (path : JSString) : JSString :=
  if dot ∈ path then path.rdropWhile (· != dot) else path

theorem clean_append {x y : JSString} : Clean (x ++ y) ↔ Clean x ∧ Clean y := List.forall_mem_append

theorem clean_of_anyChar {x : JSString} (h : ∀ c ∈ x, (!isLineTerminator c) = true) : Clean x :=
  fun c hc => by simpa using h c hc

theorem takes_plus_anyChar {greedy : Bool} {x z : JSString}
    (h : (plus greedy anyChar).Takes x z) : ∃ y, x = y ++ z ∧ Clean y := by
  obtain ⟨_, ⟨c, hc, rfl⟩, hstar⟩ := h
  obtain ⟨y, hy, rfl⟩ := takes_star_cls hstar
  exact ⟨c :: y, rfl, clean_of_anyChar (List.forall_mem_cons.mpr ⟨hc, hy⟩)⟩

theorem takes_dirPart {x z : JSString} (h : dirPart.Takes x z) : ∃ d, x = d ++ z ∧ Clean d := by
  rcases h with (⟨_, hplus, _, hlit, rfl⟩ | hlit) | rfl
  · obtain ⟨y, rfl, hy⟩ := takes_plus_anyChar hplus
    obtain rfl := takes_lit hlit
    refine ⟨y ++ [slash], (List.append_assoc y [slash] _).symm, clean_append.mpr ⟨hy, ?_⟩⟩
    decide
  · obtain rfl := takes_lit hlit
    exact ⟨[slash], rfl, by decide⟩
  · exact ⟨[], rfl, by decide⟩

theorem takes_stemPart {x z : JSString} (h : stemPart.Takes x z) : ∃ y, x = y ++ z ∧ Clean y := by
  rcases h with hplus | rfl
  · exact takes_plus_anyChar hplus
  · exact ⟨[], rfl, by decide⟩

theorem takes_extPart {x z : JSString} (h : extPart.Takes x z) :
    x = z ∨ ∃ v, x = dot :: v ++ z ∧ dot ∉ v := by
  rcases h with ⟨_, hlit, hstar⟩ | rfl
  · obtain rfl := takes_lit hlit
    obtain ⟨v, hv, rfl⟩ := takes_star_cls hstar
    exact .inr ⟨v, rfl, fun hdot => absurd (hv dot hdot) (by decide)⟩
  · exact .inl rfl

theorem clean_beforeDot {y : JSString} (hy : Clean y) {v : JSString} (hv : dot ∉ v) :
    Clean (beforeDot (y ++ dot :: v)) := by
  rw [beforeDot, if_pos (by simp), rdropWhile_last y hv]
  exact clean_append.mpr ⟨hy, by decide⟩

theorem clean_beforeDot_of_clean {path : JSString} (h : Clean path) : Clean (beforeDot path) := by
  unfold beforeDot
  split_ifs
  · exact fun c hc => h c ((List.rdropWhile_prefix _ _).mem hc)
  · exact h

theorem splitPath_clean {path : JSString} (h : (splitPath path).isSome) :
    Clean (beforeDot path) := by
  unfold splitPath splitPathRe at h
  rw [exec_start, Option.isSome_map, Option.isSome_map] at h
  obtain ⟨u, hu⟩ := Option.isSome_iff_exists.mp h
  obtain ⟨t, ⟨x, hdir, y, ⟨z, hstem, hext⟩, rfl, hnil⟩, -⟩ := takes_of_run hu
  obtain ⟨d, hpath, hd⟩ := takes_dirPart hdir
  obtain ⟨stem, rfl, hclean⟩ := takes_stemPart hstem
  replace hpath : path = d ++ (stem ++ z) := hpath
  rw [hpath, ← List.append_assoc]
  replace hclean := clean_append.mpr ⟨hd, hclean⟩
  rcases takes_extPart hext with rfl | ⟨v, rfl, hv⟩
  · rw [hnil, List.append_nil]
    exact clean_beforeDot_of_clean hclean
  · rw [hnil, List.append_nil]
    exact clean_beforeDot hclean hv

theorem exists_stem {path : JSString} (h : Clean (beforeDot path)) :
    ∃ stem ext, path = stem ++ ext ∧ Clean stem ∧
      (ext = [] ∨ ∃ v, ext = dot :: v ∧ dot ∉ v) := by
  unfold beforeDot at h
  split_ifs at h with hdot
  · obtain ⟨x, y, rfl, hy⟩ := last_of_mem hdot
    rw [rdropWhile_last x hy] at h
    exact ⟨x, dot :: y, rfl, (clean_append.mp h).1, .inr ⟨y, rfl, hy⟩⟩
  · exact ⟨path, [], (List.append_nil path).symm, h, .inl rfl⟩

theorem isSome_splitPath {path : JSString} (h : Clean (beforeDot path)) :
    (splitPath path).isSome := by
  obtain ⟨stem, ext, hpath, hstem, hext⟩ := exists_stem h
  let s : At UInt16 := ⟨0, path, fun _ => none⟩
  have hs : s.rest = stem ++ ext := hpath
  have hsome : (extPart.run (baseTail s) (s.skip stem.length)).isSome := by
    have hrest : (s.skip stem.length).rest = ext := by rw [At.rest_skip, hs, List.drop_left]
    rw [run_ext (by rwa [hrest])]
    rfl
  have hbase : (stemPart.run (extPart.run (baseTail s)) s).isSome := by
    cases stem with
    | nil => exact isSome_run_opt hsome
    | cons c stem =>
      have hne : s.rest ≠ [] := by simp [hs]
      have hplus : ((plus false anyChar).run (past s (extPart.run (baseTail s)))
          (s.reset [])).isSome :=
        isSome_run_plus (ahead_of_clean hs hstem) (by rwa [At.reset_nil, past_skip hne])
      exact run_opt_of_isSome hplus ▸ hplus
  unfold splitPath splitPathRe
  rw [exec_start, Option.isSome_map, Option.isSome_map, run_seq]
  exact isSome_run_opt (by rwa [run_base_eq])

/-- A path that has no line terminator before its last dot, or has no dot, is split. -/
theorem splitPath_isSome_iff (path : JSString) :
    (splitPath path).isSome ↔ Clean (beforeDot path) := ⟨splitPath_clean, isSome_splitPath⟩

def Returns (path : JSString) : Prop :=
  (dirname path).isSome ∧ (∀ ext, (basename path ext).isSome) ∧ (extname path).isSome

theorem returns_iff (path : JSString) : Returns path ↔ Clean (beforeDot path) := by
  rw [← splitPath_isSome_iff]
  unfold Returns dirname basename extname
  cases splitPath path with
  | none => simp
  | some groups =>
    simp only [Option.bind_eq_bind, Option.bind_some, Option.isSome_some, iff_true, and_true]
    constructor
    · split_ifs <;> rfl
    · intro ext
      split_ifs <;> rfl

/-! ### `nextPartRe` -/

/-- `/(.*?)(?:[\/]+|$)/g` -/
def nextPartRe : Regex UInt16 :=
  .seq (.group 1 (.star false anyChar)) (.alt (.plus true (lit slash)) .finish)

/-- `result[1]` and `result[0]` of `nextPartRe.exec`, and what follows. -/
def nextPart (pos : ℕ) (rest : JSString) : Option Part :=
  (nextPartRe.exec pos rest).map fun (s, t) => ⟨(t.groups 1).getD [], s.text t, t.rest⟩

section
variable {s : At UInt16}

/-- The slashes after a part. -/
theorem run_slashes (hs : s.rest = [] ∨ s.rest.head? = some slash) :
    (alt (plus true (lit slash)) .finish).run some s =
      some (s.skip (s.rest.takeWhile (· == slash)).length) := by
  cases hrest : s.rest with
  | nil =>
    have hplus : (plus true (lit slash)).run some s = none := run_cls_nil hrest
    rw [run_alt, hplus, Option.none_or, Regex.run, hrest]
    rfl
  | cons c x =>
    rw [hrest] at hs
    obtain rfl : c = slash := Option.some.inj (hs.resolve_left (List.cons_ne_nil c x))
    have hcount : (s.rest.takeWhile (· == slash)).length =
        (x.takeWhile (· == slash)).length + 1 := by rw [hrest]; rfl
    have hplus : (plus true (lit slash)).run some s =
        some (s.skip ((x.takeWhile (· == slash)).length + 1)) := by
      refine run_plus_greedy (ahead_iff.mpr hcount.ge) rfl fun m hm hmore => ?_
      have hmore := ahead_iff.mp hmore
      omega
    rw [run_alt, hplus, Option.some_or, ← hcount, hrest]

theorem run_slashes_none {c : UInt16} {x : JSString} (hs : s.rest = c :: x) (hc : c ≠ slash)
    {k : At UInt16 → Option (At UInt16)} :
    (alt (plus true (lit slash)) .finish).run k s = none := by
  have hplus : (plus true (lit slash)).run k s = none :=
    (run_lit_cons hs).trans (if_neg hc)
  rw [run_alt, hplus, Option.none_or, Regex.run, hs]
  rfl

theorem partAt_some {x text rest : JSString} (h : partAt x = some (text, rest)) :
    x = text ++ rest ∧ Clean text ∧ slash ∉ text ∧ (rest = [] ∨ rest.head? = some slash) := by
  induction x generalizing text with
  | nil =>
    obtain ⟨rfl, rfl⟩ := Prod.mk.inj (Option.some.inj h)
    exact ⟨rfl, by decide, List.not_mem_nil, .inl rfl⟩
  | cons c x ih =>
    unfold partAt at h
    split_ifs at h with hc hterm
    · obtain ⟨rfl, rfl⟩ := Prod.mk.inj (Option.some.inj h)
      exact ⟨rfl, by decide, List.not_mem_nil, .inr (by rw [hc]; rfl)⟩
    · obtain ⟨⟨text', rest'⟩, hpart, heq⟩ := Option.map_eq_some_iff.mp h
      obtain ⟨rfl, rfl⟩ := Prod.mk.inj heq
      obtain ⟨rfl, hclean, hslash, hrest⟩ := ih hpart
      refine ⟨rfl, List.forall_mem_cons.mpr ⟨by simpa using hterm, hclean⟩, ?_, hrest⟩
      exact fun hmem => (List.mem_cons.mp hmem).elim (fun heq => hc heq.symm) hslash

/-- A part that ends before it is whole. -/
theorem partAt_none {x : JSString} (h : partAt x = none) {n : ℕ}
    (hn : n ≤ (x.takeWhile fun c => !isLineTerminator c).length) :
    ∃ c z, x.drop n = c :: z ∧ c ≠ slash := by
  induction x generalizing n with
  | nil => cases h
  | cons c x ih =>
    unfold partAt at h
    split_ifs at h with hc hterm
    · rw [List.takeWhile_cons_of_neg (by simpa using hterm)] at hn
      obtain rfl := Nat.le_zero.mp hn
      exact ⟨c, x, rfl, hc⟩
    · cases n with
      | zero => exact ⟨c, x, rfl, hc⟩
      | succ n =>
        rw [List.takeWhile_cons_of_pos (by simpa using hterm)] at hn
        exact ih (Option.map_eq_none_iff.mp h) (Nat.le_of_succ_le_succ hn)

theorem run_nextPartRe_none (h : partAt s.rest = none) : nextPartRe.run some s = none := by
  unfold nextPartRe
  rw [run_seq, run_group]
  refine run_star_none fun n hn => ?_
  obtain ⟨c, z, hdrop, hc⟩ := partAt_none h (ahead_iff.mp hn)
  exact run_slashes_none (s := (s.skip n).capture 1 (s.text (s.skip n))) hdrop hc

/-- What a match leaves, after the slashes. -/
theorem run_nextPartRe_some {text rest : JSString} (h : partAt s.rest = some (text, rest)) :
    nextPartRe.run some s =
      some (((s.skip text.length).capture 1 text).skip (rest.takeWhile (· == slash)).length) := by
  obtain ⟨hs, hclean, hslash, hrest⟩ := partAt_some h
  have hskip : (s.skip text.length).rest = rest := by rw [At.rest_skip, hs, List.drop_left]
  have htext : s.text (s.skip text.length) = text := by
    rw [At.text_skip _ (by simp [hs]), hs, List.take_left]
  have hend : (alt (plus true (lit slash)) .finish).run some
      ((s.skip text.length).capture 1 (s.text (s.skip text.length))) =
      some (((s.skip text.length).capture 1 text).skip
        (rest.takeWhile (· == slash)).length) := by
    rw [htext, run_slashes (s := (s.skip text.length).capture 1 text) (by rwa [← hskip] at hrest),
      At.rest_capture, hskip]
  unfold nextPartRe
  rw [run_seq, run_group, anyChar, run_lazy (ahead_of_clean hs hclean) (by rw [hend]; rfl), hend]
  intro m hm
  have hne : text.drop m ≠ [] := by simpa using hm
  obtain ⟨c, z, hdrop⟩ := List.exists_cons_of_ne_nil hne
  have hc : c ≠ slash := by
    rintro rfl
    exact hslash (List.mem_of_mem_drop (hdrop ▸ List.mem_cons_self))
  refine run_slashes_none (s := (s.skip m).capture 1 (s.text (s.skip m))) (x := z ++ rest) ?_ hc
  rw [At.rest_capture, At.rest_skip, hs, List.drop_append_of_le_length (Nat.le_of_lt hm), hdrop,
    List.cons_append]

end

theorem nextPart_some (pos : ℕ) {x text rest : JSString} (h : partAt x = some (text, rest)) :
    (nextPartRe.run some ⟨pos, x, fun _ => none⟩).map
      (fun t => Fs.Part.mk ((t.groups 1).getD []) (At.text ⟨pos, x, fun _ => none⟩ t) t.rest) =
      some ⟨text, text ++ rest.takeWhile (· = slash), rest.dropWhile (· = slash)⟩ := by
  obtain ⟨hx, -⟩ := partAt_some h
  have hsplit : rest.takeWhile (· = slash) ++ rest.dropWhile (· = slash) = rest :=
    List.takeWhile_append_dropWhile
  have hdrop : rest.drop (rest.takeWhile (· = slash)).length = rest.dropWhile (· = slash) := by
    generalize rest.dropWhile (· = slash) = more at hsplit ⊢
    generalize rest.takeWhile (· = slash) = slashes at hsplit ⊢
    rw [← hsplit]
    exact List.drop_left
  have hrest : (((At.mk pos x fun _ => none).skip text.length).capture 1 text |>.skip
      (rest.takeWhile (· == slash)).length).rest = rest.dropWhile (· = slash) := by
    rw [At.rest_skip, At.rest_capture, At.rest_skip, hx, List.drop_left]
    exact hdrop
  rw [run_nextPartRe_some (s := ⟨pos, x, fun _ => none⟩) h, Option.map_some, hrest, At.text, hrest]
  have hwhole : x = text ++ rest.takeWhile (· = slash) ++ rest.dropWhile (· = slash) := by
    rw [List.append_assoc, hsplit, hx]
  have htake : x.take (x.length - (rest.dropWhile (· = slash)).length) =
      text ++ rest.takeWhile (· = slash) := by
    conv_lhs => rw [hwhole]
    rw [List.length_append, Nat.add_sub_cancel, List.take_left]
  exact congrArg some (congrArg₂ (Fs.Part.mk · · _) rfl htake)

/-- The scan of `realpathSync` is that of `nextPartRe`. -/
theorem nextPart_eq (pos : ℕ) (rest : JSString) : nextPart pos rest = some (Fs.exec rest) := by
  unfold nextPart
  induction rest generalizing pos with
  | nil =>
    have hpart := nextPart_some pos (x := []) rfl
    rw [exec, Option.map_map]
    exact hpart
  | cons c x ih =>
    rw [exec, Fs.exec]
    cases hpart : partAt (c :: x) with
    | none =>
      rw [run_nextPartRe_none (s := ⟨pos, c :: x, fun _ => none⟩) hpart]
      exact ih (pos + 1)
    | some found =>
      obtain ⟨text, rest⟩ := found
      have hsome := nextPart_some pos hpart
      obtain ⟨t, ht, heq⟩ := Option.map_eq_some_iff.mp hsome
      rw [ht]
      exact congrArg some heq

/-! ### The scan -/

/-- The results of the loop, which runs while there is more of the path. -/
def scanFrom : ℕ → JSString → List Part
  | 0, _ => []
  | n + 1, rest =>
    if rest = [] then []
    else
      let part := Fs.exec rest
      part :: scanFrom n part.rest

def scan (path : JSString) : List Part := scanFrom path.length path

structure SplitsAtSlashes (path : JSString) (parts : List Part) : Prop where
  whole : parts.flatMap Part.withSlash = path
  base : ∀ part ∈ parts, slash ∉ part.base ∧
    ∃ slashes, part.withSlash = part.base ++ slashes ∧ ∀ c ∈ slashes, c = slash
  cut : ∀ part ∈ parts.dropLast, part.withSlash.getLast? = some slash

/-- A part in front of a text, as `exec` finds it. -/
theorem exec_shape (rest : JSString) :
    ∃ c tail, rest = c ++ tail ∧ slash ∉ c ∧ (tail = [] ∨ tail.head? = some slash) ∧
      Fs.exec rest =
        ⟨visible c, visible c ++ tail.takeWhile (· = slash), tail.dropWhile (· = slash)⟩ := by
  have hc : slash ∉ rest.takeWhile (· ≠ slash) := fun hmem => by
    simpa using List.mem_takeWhile_imp hmem
  have htail : rest.dropWhile (· ≠ slash) = [] ∨
      (rest.dropWhile (· ≠ slash)).head? = some slash := by
    cases hdrop : rest.dropWhile (· ≠ slash) with
    | nil => exact .inl rfl
    | cons d tail =>
      have hd := List.head?_dropWhile_not (· ≠ slash) rest
      rw [hdrop] at hd
      exact .inr (by simpa using hd)
  have hsplit : rest.takeWhile (· ≠ slash) ++ rest.dropWhile (· ≠ slash) = rest :=
    List.takeWhile_append_dropWhile
  refine ⟨_, _, hsplit.symm, hc, htail, ?_⟩
  rw [← Fs.exec_append hc htail, hsplit]

theorem length_exec {rest : JSString} (h : rest ≠ []) :
    (Fs.exec rest).rest.length < rest.length := by
  obtain ⟨c, tail, rfl, -, htail, hexec⟩ := exec_shape rest
  have hdrop := (List.dropWhile_suffix (· = slash) (l := tail)).length_le
  rw [hexec, List.length_append]
  dsimp only
  cases c with
  | cons d c =>
    rw [List.length_cons]
    omega
  | nil =>
    obtain ⟨x, rfl⟩ := List.head?_eq_some_iff.mp (htail.resolve_left h)
    have hless := (List.dropWhile_suffix (· = slash) (l := x)).length_le
    rw [List.dropWhile_cons_of_pos (by simp), List.length_cons]
    omega

theorem clean_slashes {x : JSString} (h : ∀ c ∈ x, c = slash) : Clean x := fun c hc => by
  rw [h c hc]
  decide

theorem mem_slashes {x : JSString} : ∀ c ∈ x.takeWhile (· = slash), c = slash :=
  fun c hc => by simpa using List.mem_takeWhile_imp hc

/-- No result of the scan has a line terminator. -/
theorem clean_scanFrom (n : ℕ) (rest : JSString) :
    ∀ part ∈ scanFrom n rest, Clean part.withSlash := by
  induction n generalizing rest with
  | zero => exact nofun
  | succ n ih =>
    unfold scanFrom
    split_ifs with hnil
    · exact nofun
    · obtain ⟨c, tail, -, -, -, hexec⟩ := exec_shape rest
      refine List.forall_mem_cons.mpr ⟨?_, ih _⟩
      rw [hexec]
      have hvisible : Clean (visible c) := by
        simpa [Clean] using Fs.any_visible c
      exact clean_append.mpr ⟨hvisible, clean_slashes mem_slashes⟩

theorem scanFrom_splits {n : ℕ} {rest : JSString} (hn : rest.length ≤ n) (h : Clean rest) :
    SplitsAtSlashes rest (scanFrom n rest) := by
  induction n generalizing rest with
  | zero =>
    obtain rfl := List.eq_nil_of_length_eq_zero (Nat.le_zero.mp hn)
    exact ⟨rfl, nofun, nofun⟩
  | succ n ih =>
    unfold scanFrom
    split_ifs with hnil
    · exact ⟨hnil.symm, nofun, nofun⟩
    · have hless := length_exec hnil
      obtain ⟨c, tail, hrest, hslash, htail, hexec⟩ := exec_shape rest
      have hclean := clean_append.mp (hrest ▸ h)
      have hvisible : visible c = c := Fs.visible_of_any (by simpa [Clean] using hclean.1)
      have hsplit : tail.takeWhile (· = slash) ++ tail.dropWhile (· = slash) = tail :=
        List.takeWhile_append_dropWhile
      have hafter : Clean (tail.dropWhile (· = slash)) := fun d hd =>
        hclean.2 d ((List.dropWhile_suffix _).mem hd)
      rw [hvisible] at hexec
      rw [hexec] at hless ⊢
      dsimp only at hless ⊢
      have hfuel : (tail.dropWhile (· = slash)).length ≤ n := by omega
      have ih := ih hfuel hafter
      refine ⟨?_, ?_, ?_⟩
      · rw [List.flatMap_cons, ih.whole, List.append_assoc, hsplit, hrest]
      · exact List.forall_mem_cons.mpr ⟨⟨hslash, _, rfl, mem_slashes⟩, ih.base⟩
      · intro part hpart
        by_cases hmore : scanFrom n (tail.dropWhile (· = slash)) = []
        · rw [hmore] at hpart
          cases hpart
        · rw [List.dropLast_cons_of_ne_nil hmore] at hpart
          rcases List.mem_cons.mp hpart with rfl | hpart
          · -- another part follows only where there is a slash
            have hne : tail ≠ [] := by
              rintro rfl
              exact hmore (by cases n <;> rfl)
            obtain ⟨x, rfl⟩ := List.head?_eq_some_iff.mp (htail.resolve_left hne)
            have htake : (slash :: x).takeWhile (· = slash) ≠ [] := by simp
            have hlast := mem_slashes _ (List.getLast_mem htake)
            rw [List.getLast?_append_of_ne_nil _ htake, List.getLast?_eq_some_getLast htake, hlast]
          · exact ih.cut part hpart

theorem scan_splits_iff (path : JSString) : SplitsAtSlashes path (scan path) ↔ Clean path := by
  refine ⟨fun h => ?_, fun h => scanFrom_splits le_rfl h⟩
  rw [← h.whole]
  intro c hc
  obtain ⟨part, hpart, hc⟩ := List.mem_flatMap.mp hc
  exact clean_scanFrom _ _ part hpart c hc

/-- Both ways to take a path apart work on the paths without line terminators. -/
theorem split_and_scan_iff (path : JSString) :
    Returns path ∧ SplitsAtSlashes path (scan path) ↔ Clean path := by
  rw [returns_iff, scan_splits_iff]
  exact ⟨And.right, fun h => ⟨clean_beforeDot_of_clean h, h⟩⟩

/-- A name of two lines. -/
theorem split_and_scan_newline : 0 ∉ js "a\nb" ∧ dirname (js "a\nb") = none ∧
    basename (js "a\nb") [] = none ∧ extname (js "a\nb") = none ∧
      ¬ SplitsAtSlashes (js "a\nb") (scan (js "a\nb")) := by
  have hsplit : splitPath (js "a\nb") = none :=
    Option.not_isSome_iff_eq_none.mp (mt splitPath_clean (by decide))
  refine ⟨by decide, ?_, ?_, ?_, ?_⟩
  · rw [dirname, hsplit]
    rfl
  · rw [basename, hsplit]
    rfl
  · rw [extname, hsplit]
    rfl
  · rw [scan_splits_iff]
    decide

end NodeJS.Path
