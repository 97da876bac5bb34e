import NodeJS.Fs.Shared
import NodeJS.Modules.Lookup

/-! The search for a file comes down to one call of `realpathSync`, for the first of the paths it
goes through that is a file. It ends if that call does. -/
namespace NodeJS.Modules
open NodeJS.Path NodeJS.Fs Lib

theorem Look.bind_apply {α β : Type} (m : Look α) (f : α → Look β) (caches : Caches) :
    (m >>= f) caches = match m caches with
      | none => none
      | some (.ok a, caches') => f a caches'
      | some (.error e, caches') => some (.error e, caches') := by
  change (m caches).bind (fun x => ExceptT.bindCont f x.1 x.2) = _
  cases m caches with
  | none => rfl
  | some x =>
    obtain ⟨r, caches'⟩ := x
    cases r <;> rfl

theorem Look.none_or (y : Look (Option JSString)) : Look.or (pure none) y = y := by
  unfold Look.or
  rw [pure_bind]

theorem Look.or_assoc (x y z : Look (Option JSString)) : (x.or y).or z = x.or (y.or z) := by
  unfold Look.or
  rw [bind_assoc]
  congr 1
  funext o
  cases o with
  | none => rfl
  | some filename => rw [pure_bind]

theorem Look.found_or (m : Look JSString) (y : Look (Option JSString)) :
    Look.or (some <$> m) y = some <$> m := by
  unfold Look.or
  rw [bind_map_left, map_eq_pure_bind]

section
variable (D : System) (fuel : ℕ) (exts : List JSString)

/-- What `tryFile` finds first. -/
def firstFile (paths : List JSString) : Look (Option JSString) :=
  match paths.find? D.isFile with
  | some p => some <$> realpathSync D fuel p
  | none => pure none

theorem firstFile_cons (p : JSString) (paths : List JSString) :
    firstFile D fuel (p :: paths) = (tryFile D fuel p).or (firstFile D fuel paths) := by
  unfold firstFile tryFile
  by_cases hfile : D.isFile p = true
  · rw [List.find?_cons_of_pos hfile, if_pos hfile, Look.found_or]
  · rw [List.find?_cons_of_neg hfile, if_neg hfile, Look.none_or]

theorem firstFile_append (paths paths' : List JSString) :
    firstFile D fuel (paths ++ paths') = (firstFile D fuel paths).or (firstFile D fuel paths') := by
  induction paths with
  | nil => exact (Look.none_or _).symm
  | cons p paths ih => rw [List.cons_append, firstFile_cons, firstFile_cons, ih, Look.or_assoc]

def extended (p : JSString) : List JSString := exts.map (p ++ ·)

theorem tryExtensions_eq (p : JSString) :
    tryExtensions D fuel p exts = firstFile D fuel (extended exts p) := by
  induction exts with
  | nil => rfl
  | cons ext exts ih =>
    unfold extended
    rw [List.map_cons, firstFile_cons]
    exact congrArg (Look.or (tryFile D fuel (p ++ ext))) ih

/-- The paths that `tryPackage` goes through. -/
def packaged (requestPath : JSString) : List JSString :=
  match D.main (D.resolve [requestPath, js "package.json"]) with
  | none => []
  | some main =>
    let filename := D.resolveMain requestPath main
    filename :: extended exts filename ++ extended exts (D.resolve [filename, js "index"])

theorem tryPackage_eq (requestPath : JSString) :
    tryPackage D fuel exts requestPath = firstFile D fuel (packaged D exts requestPath) := by
  unfold tryPackage packaged
  cases D.main (D.resolve [requestPath, js "package.json"]) with
  | none => rfl
  | some main =>
    dsimp only
    rw [firstFile_append, firstFile_cons, tryExtensions_eq, tryExtensions_eq]

def candidates (request : JSString) (paths : List JSString) : List JSString :=
  paths.flatMap fun path =>
    let basePath := D.resolve [path, request]
    (if request.getLast? = some slash then [] else basePath :: extended exts basePath) ++
      packaged D exts basePath ++ extended exts (D.resolve [basePath, js "index"])

theorem findIn_eq (request : JSString) (paths : List JSString) :
    findIn D fuel exts request paths = firstFile D fuel (candidates D exts request paths) := by
  induction paths with
  | nil => rfl
  | cons path paths ih =>
    have hfile : (if request.getLast? = some slash then pure none
        else (tryFile D fuel (D.resolve [path, request])).or
          (tryExtensions D fuel (D.resolve [path, request]) exts) : Look (Option JSString)) =
        firstFile D fuel (if request.getLast? = some slash then []
          else D.resolve [path, request] :: extended exts (D.resolve [path, request])) := by
      split_ifs with hslash
      · rfl
      · rw [firstFile_cons, tryExtensions_eq]
    unfold candidates
    rw [List.flatMap_cons, firstFile_append, firstFile_append, firstFile_append, ← hfile,
      ← tryPackage_eq, ← tryExtensions_eq]
    exact congrArg (Look.or _) ih

/-- The path for which `_findPath` calls `realpathSync`, if it does. -/
def asked (caches : Caches) (request : JSString) (paths : List JSString) : Option JSString :=
  match caches.path request (searched request paths) with
  | some _ => none
  | none => (candidates D exts request (searched request paths)).find? D.isFile

end

/-! ### The end of the search -/

/-- Replacing the links of the path one after the other comes to an end, and of the links that are
met no two share a key, and none is met under two names. -/
structure Clear (D : System) (p : JSString) : Prop where
  resolves : ∃ o, Resolves D.files (start D.cwd p) o
  apart : Apart D.files (start D.cwd p)
  oneName : OneName D.files (start D.cwd p)

section
variable {D : System} {exts : List JSString} {p request : JSString} {paths : List JSString}
  {caches caches' : Caches}

/-- What `realpathSync` has noted is right. -/
abbrev Caches.Sound (D : System) (caches : Caches) : Prop :=
  Fs.Sound D.files true (some caches.realpath)

theorem Clear.returns (h : Clear D p) {cache : Cache}
    (hsound : Fs.Sound D.files true (some cache)) :
    ∃ r cache', RealpathSync D.files D.cwd.path p (some cache) (r, some cache') ∧
      Fs.Sound D.files true (some cache') := by
  obtain ⟨⟨o, hres⟩, hapart, hone⟩ := h
  have hnames := isName_start D.cwd p
  cases hget : cache (absolute (start D.cwd p)) with
  | some val => exact ⟨_, cache, realpathSync_of_hit hget, hsound⟩
  | none =>
    have hstart := enter_starting hnames hsound
    have hends : SyncFinishes D.files true D.cwd.path (start D.cwd p) o (.inl (_, [])) :=
      realpathSync_finishes hnames hapart hone hres _ [] hstart fun id hid => absurd rfl hid
    obtain ⟨cache', hends, hcache'⟩ := hends
    obtain ⟨cache', rfl⟩ := Option.isSome_iff_exists.mp hcache'.isSome
    exact ⟨_, cache', realpathSync_of_miss hget hends, hcache'⟩

/-- The call ends, and a call that has ended keeps the cache sound. -/
theorem realpathSync_ends (h : Clear D p) (hsound : caches.Sound D) :
    ∃ r caches', (∃ fuel, realpathSync D fuel p caches = some (r, caches')) ∧ caches'.Sound D ∧
      ∀ fuel x, realpathSync D fuel p caches = some x → x = (r, caches') := by
  obtain ⟨r, cache', hends, hsound'⟩ := h.returns hsound
  refine ⟨r.elim (.error .realpath) .ok, { caches with realpath := cache' }, ?_, hsound', ?_⟩
  · obtain ⟨fuel, hloop⟩ := loop_of_ends hends
    exact ⟨fuel, Option.map_eq_some_iff.mpr ⟨_, hloop, rfl⟩⟩
  · intro fuel x hx
    obtain ⟨outcome, hloop, rfl⟩ := Option.map_eq_some_iff.mp hx
    obtain rfl := Ends.unique (ends_of_loop hloop) hends
    rfl

theorem findPath_apply (fuel : ℕ) : findPath D fuel exts request paths caches =
    match caches.path request (searched request paths) with
    | some filename => some (.ok (some filename), caches)
    | none => (findIn D fuel exts request (searched request paths) caches).map
      fun (r, caches') => (r, match r with
        | .ok (some filename) => caches'.remember request (searched request paths) filename
        | _ => caches') := by
  unfold findPath
  rw [Look.bind_apply]
  change (match caches.path request (searched request paths) with
    | some filename => _
    | none => _ : Look _) caches = _
  cases caches.path request (searched request paths) with
  | some filename => rfl
  | none =>
    dsimp only
    rw [Look.bind_apply]
    cases findIn D fuel exts request (searched request paths) caches with
    | none => rfl
    | some x =>
      obtain ⟨r, caches'⟩ := x
      match r with
      | .error e => rfl
      | .ok none => rfl
      | .ok (some filename) => rfl

theorem findPath_of_asked (fuel : ℕ) (hasked : asked D exts caches request paths = some p) :
    findPath D fuel exts request paths caches =
      (realpathSync D fuel p caches).map fun (r, caches') => (r.map some, match r with
        | .ok filename => caches'.remember request (searched request paths) filename
        | .error _ => caches') := by
  unfold asked at hasked
  cases hcache : caches.path request (searched request paths) with
  | some filename =>
    rw [hcache] at hasked
    exact absurd hasked nofun
  | none =>
    rw [hcache] at hasked
    dsimp only at hasked
    rw [findPath_apply, hcache, findIn_eq]
    unfold firstFile
    rw [hasked]
    dsimp only
    rw [map_eq_pure_bind, Look.bind_apply]
    cases realpathSync D fuel p caches with
    | none => rfl
    | some x =>
      obtain ⟨r, caches'⟩ := x
      cases r <;> rfl

/-- Without a call of `realpathSync`, the caches stay as they are. -/
theorem findPath_of_none (fuel : ℕ) (hasked : asked D exts caches request paths = none) :
    ∃ r, findPath D fuel exts request paths caches = some (r, caches) := by
  unfold asked at hasked
  cases hcache : caches.path request (searched request paths) with
  | some filename =>
    rw [findPath_apply, hcache]
    exact ⟨_, rfl⟩
  | none =>
    rw [hcache] at hasked
    dsimp only at hasked
    rw [findPath_apply, hcache, findIn_eq]
    unfold firstFile
    rw [hasked]
    exact ⟨_, rfl⟩

/-- `_findPath` throws or returns, and the cache stays sound. -/
theorem findPath_ends (hclear : ∀ p ∈ asked D exts caches request paths, Clear D p)
    (hsound : caches.Sound D) :
    (∃ fuel x, findPath D fuel exts request paths caches = some x) ∧
      ∀ fuel x, findPath D fuel exts request paths caches = some x → x.2.Sound D := by
  cases hasked : asked D exts caches request paths with
  | none =>
    obtain ⟨r, hr⟩ := findPath_of_none 0 hasked
    refine ⟨⟨0, _, hr⟩, fun fuel x hx => ?_⟩
    obtain ⟨r', hr'⟩ := findPath_of_none fuel hasked
    obtain rfl := Option.some.inj (hr'.symm.trans hx)
    exact hsound
  | some p =>
    obtain ⟨r, caches', ⟨fuel, hends⟩, hsound', hunique⟩ :=
      realpathSync_ends (hclear p hasked) hsound
    refine ⟨⟨fuel, _, (findPath_of_asked fuel hasked).trans (congrArg _ hends)⟩,
      fun fuel x hx => ?_⟩
    obtain ⟨y, hy, rfl⟩ := Option.map_eq_some_iff.mp ((findPath_of_asked fuel hasked).symm.trans hx)
    obtain rfl := hunique fuel y hy
    cases r <;> exact hsound'

end

end NodeJS.Modules
