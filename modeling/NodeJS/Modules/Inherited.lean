import NodeJS.Modules.Required
import NodeJS.Path.Normalize

/-! What `require` takes for a core module or a cached one: `in` and plain reads of a property find
what an object inherits from `Object.prototype` as well. -/
namespace NodeJS.Modules
open NodeJS.Path NodeJS.Fs Lib

/-- The value of a property: whether it is truthy, and its own property `exports`, unless that is
`undefined`. -/
structure Value (V : Type*) where
  truthy : Bool
  exports : Option V

/-- The own keys of `process.binding('natives')` and the properties of `Object.prototype`, none of
which looks like an absolute path. -/
structure Names (V : Type*) where
  natives : JSString → Bool
  proto : JSString → Option (Value V)
  relative : ∀ id, (natives id || (proto id).isSome) = true → id.head? ≠ some slash

/-- `NativeModule.exists`: `id in NativeModule._source` -/
def Names.has {V : Type*} (N : Names V) (id : JSString) : Bool :=
  N.natives id || (N.proto id).isSome

def Names.system {V : Type*} (N : Names V) (D : System) : System := { D with native := N.has }

/-- The loader, and the own keys of `NativeModule._cache`. -/
structure Process (V : Type*) where
  loader : Loader V
  compiled : JSString → Bool

/-- What a `require` comes to: `exports` of a `NativeModule`, `exports` of a property of
`Object.prototype`, or what is done about the file of a module. -/
inductive Result (V : Type*)
  | core (caches : Caches)
  | inherited (caches : Caches) (value : Value V)
  | file (s : Loader V)

def Result.loader {V : Type*} (s : Loader V) : Result V → Loader V
  | .core caches => { s with caches := caches, answer := .native }
  | .inherited caches _ => { s with caches := caches, answer := .none }
  | .file s => s

section
variable {V : Type*} (N : Names V) (D : System)

/-- What a read of a property inherits, if that is truthy. -/
def Names.read (key : JSString) : Option (Value V) := (N.proto key).filter (·.truthy)

/-- `NativeModule.require` of what `NativeModule.exists`, and `_load` of `'repl'`. -/
def Process.nativeRequire (p : Process V) (caches : Caches) (id : JSString) :
    Result V × (JSString → Bool) :=
  if id = js "native_module" then (.core caches, p.compiled)
  else if id = js "repl" ∨ p.compiled id then
    (.core caches, Function.update p.compiled id true)
  else match N.read id with
    | some value => (.inherited caches value, p.compiled)
    | none => (.core caches, Function.update p.compiled id true)

/-- `Module._load` -/
def Process.require (p : Process V) (fuel : ℕ) (request : JSString) (parent : Option ℕ) :
    Option (Result V × (JSString → Bool)) :=
  match p.loader.resolveFilename (N.system D) fuel request (parent.map p.loader.modules)
    p.loader.caches with
  | none => none
  | some (.error e, caches) =>
    some (.file { p.loader with caches := caches, answer := .threw e }, p.compiled)
  | some (.ok filename, caches) =>
    match p.loader.cache filename, N.read filename with
    | some i, _ =>
      some (.file { p.loader with
        caches := caches, answer := .returned (p.loader.modules i).exports }, p.compiled)
    | none, some value => some (.inherited caches value, p.compiled)
    | none, none =>
      if N.has filename then some (p.nativeRequire N caches filename)
      else some (.file ({ p.loader with caches := caches }.load D filename), p.compiled)

namespace Process

def new (exts paths : List JSString) : Process V := ⟨.new exts paths, fun _ => false⟩

def step (p : Process V) : Action V → Option (Process V)
  | .require fuel request parent =>
    if ∀ i ∈ parent, i < p.loader.count then
      (p.require N D fuel request parent).map fun (r, compiled) => ⟨r.loader p.loader, compiled⟩
    else none
  | a => (Modules.step (N.system D) p.loader a).map fun s => { p with loader := s }

end Process

/-- At some time `require` comes to this. -/
def Process.Requires (p : Process V) (request : JSString) (parent : Option ℕ) (r : Result V) :
    Prop :=
  ∃ fuel compiled, p.require N D fuel request parent = some (r, compiled)

/-- The process, if it had no core modules. -/
def System.user : System := { D with native := fun _ => false }

/-- The lookup of the file of a module comes to this. -/
def Loader.Looks (s : Loader V) (request : JSString) (parent : Option ℕ)
    (r : Except Thrown JSString) (caches : Caches) : Prop :=
  ∃ fuel, s.resolveFilename D.user fuel request (parent.map s.modules) s.caches = some (r, caches)

/-- The module of the file that is found is in the cache or is loaded, or there is no such file. -/
inductive Lawful (s : Loader V) (request : JSString) (parent : Option ℕ) : Result V → Prop
  | cannotFind {caches : Caches}
    (hlooks : s.Looks D request parent (.error (cannotFind request)) caches) :
    Lawful s request parent
      (.file { s with caches := caches, answer := .threw (cannotFind request) })
  | cached {filename : JSString} {caches : Caches} {i : ℕ}
    (hlooks : s.Looks D request parent (.ok filename) caches)
    (hcache : s.cache filename = some i) (hfile : (s.modules i).filename = filename) :
    Lawful s request parent
      (.file { s with caches := caches, answer := .returned (s.modules i).exports })
  | loads {filename dir : JSString} {caches : Caches}
    (hlooks : s.Looks D request parent (.ok filename) caches)
    (hcache : s.cache filename = none) (hdir : dirname filename = some dir) :
    Lawful s request parent (.file ({ s with caches := caches }.load D filename))

/-- The file is in `Module._pathCache`, or is what `realpathSync` makes of the path found. -/
inductive Located (s : Loader V) (request : JSString) (parent : Option ℕ) : JSString → Prop
  | noted {paths : List JSString} {filename : JSString}
    (hpaths : s.resolveLookupPaths D.user request (parent.map s.modules) = some paths)
    (hnoted : s.caches.path request (searched request paths) = some filename) :
    Located s request parent filename
  | real {p filename : JSString} {fuel : ℕ} {caches : Caches}
    (hasks : s.asks D.user request parent = some p)
    (hreal : realpathSync D fuel p s.caches = some (.ok filename, caches)) :
    Located s request parent filename

/-- Nothing stops the lookup: `path.dirname` can split the name of the parent's file, if it has to,
and that of a file that is not loaded yet, and `realpathSync` returns. -/
structure Unhindered (s : Loader V) (request : JSString) (parent : Option ℕ) : Prop where
  paths : s.resolveLookupPaths D.user request (parent.map s.modules) ≠ none
  realpath : ∀ p ∈ s.asks D.user request parent, ∃ fuel filename caches,
    realpathSync D fuel p s.caches = some (.ok filename, caches)
  dirname : ∀ filename, Located D s request parent filename → s.cache filename = none →
    dirname filename ≠ none

end

/-! ### Absolute paths -/

def Rooted (path : JSString) : Prop := path.head? = some slash

theorem rooted_resolve (cwd : Cwd) (paths : List JSString) : Rooted (resolve cwd.path paths) := by
  rw [resolve_eq]
  exact rfl

theorem Rooted.append {path : JSString} (h : Rooted path) (rest : JSString) :
    Rooted (path ++ rest) := by
  cases path with
  | nil => cases h
  | cons c path => exact h

def RootedCache (cache : Cache) : Prop := ∀ key value, cache key = some value → Rooted value

theorem RootedCache.update {cache : Cache} (h : RootedCache cache) (key : JSString)
    {value : JSString} (hvalue : Rooted value) :
    RootedCache (Function.update cache key (some value)) := by
  intro key' value' hget
  by_cases hkey : key' = key
  · rw [hkey, Function.update_self] at hget
    obtain rfl := Option.some.inj hget
    exact hvalue
  · rw [Function.update_of_ne hkey] at hget
    exact h key' value' hget

section
variable {F : Files} {v : Vars}

structure RootedVars (v : Vars) : Prop where
  p : Rooted v.p
  current : v.pos = 0 ∧ v.current = [] ∨ Rooted v.current
  cache : ∀ cache ∈ v.cache, RootedCache cache

theorem RootedVars.get (h : RootedVars v) {key value : JSString} (hget : v.get key = some value) :
    Rooted value := by
  obtain ⟨cache, hcache, hvalue⟩ := Option.bind_eq_some_iff.mp hget
  exact h.cache cache hcache key value hvalue

theorem RootedVars.put (h : RootedVars v) (key : JSString) {value : JSString}
    (hvalue : Rooted value) : RootedVars (v.put key value) := by
  refine ⟨h.p, h.current, fun cache hcache => ?_⟩
  obtain ⟨cache', hcache', rfl⟩ := Option.map_eq_some_iff.mp hcache
  exact (h.cache cache' hcache').update key hvalue

theorem RootedVars.restart (h : RootedVars v) (cwd : Cwd) (resolvedLink : JSString) :
    RootedVars (v.restart cwd.path resolvedLink) :=
  ⟨rooted_resolve cwd [resolvedLink, v.p.drop v.pos], .inl ⟨rfl, rfl⟩, h.cache⟩

theorem RootedVars.seen (h : RootedVars v) (seenLinks : JSString → Option JSString) :
    RootedVars { v with seenLinks := seenLinks } := ⟨h.p, h.current, h.cache⟩

/-- The first part has only the slashes that a path begins with. -/
theorem exec_rooted {path : JSString} (h : Rooted path) :
    (exec path).base = [] ∧ Rooted (exec path).withSlash := by
  cases path with
  | nil => cases h
  | cons c path =>
    obtain rfl : c = slash := Option.some.inj h
    have hpart : partAt (slash :: path) = some ([], slash :: path) := by
      rw [partAt, if_pos rfl]
    have hexec : exec (slash :: path) = ⟨[], [] ++ (slash :: path).takeWhile (· = slash),
        (slash :: path).dropWhile (· = slash)⟩ := by
      unfold exec
      rw [hpart]
    rw [hexec, List.nil_append, List.takeWhile_cons_of_pos (by simp)]
    exact ⟨rfl, rfl⟩

theorem RootedVars.next (h : RootedVars v) :
    RootedVars v.next ∧ (v.next.base = [] ∨ Rooted v.next.base) := by
  rcases h.current with ⟨hpos, hcurrent⟩ | hcurrent
  · obtain ⟨hbase, hslash⟩ := exec_rooted h.p
    refine ⟨⟨h.p, .inr ?_, h.cache⟩, .inl ?_⟩
    · show Rooted (v.current ++ (exec (v.p.drop v.pos)).withSlash)
      rw [hcurrent, hpos]
      exact hslash
    · show v.current ++ (exec (v.p.drop v.pos)).base = []
      rw [hcurrent, hpos]
      exact hbase
  · exact ⟨⟨h.p, .inr (hcurrent.append _), h.cache⟩, .inr (hcurrent.append _)⟩

theorem rooted_round (cwd : Cwd) (original : JSString) (x : Vars × JSString)
    (h : RootedVars x.1) :
    Sum.elim (fun x : Vars × JSString => RootedVars x.1)
      (fun o : Outcome => (∀ p ∈ o.1, Rooted p) ∧ ∀ cache ∈ o.2, RootedCache cache)
      (realpathSyncRound F cwd.path original x) := by
  obtain ⟨v, resolvedLink⟩ := x
  obtain ⟨hnext, hbase⟩ := RootedVars.next h
  unfold realpathSyncRound
  dsimp only
  split_ifs with hpos hskips
  · exact hnext
  · have hbase' : Rooted v.next.base := hbase.resolve_left fun hnil => hskips (.inl hnil)
    split
    · exact hnext.restart cwd _
    · split
      · exact ⟨nofun, hnext.cache⟩
      · split
        · exact ⟨hnext.p, hnext.current, (hnext.put _ hbase').cache⟩
        · split
          · exact hnext.restart cwd _
          · split_ifs
            · exact ((hnext.seen _).put _ (rooted_resolve cwd _)).restart cwd _
            · exact ⟨nofun, hnext.cache⟩
  · refine ⟨fun p hp => ?_, (RootedVars.put h original h.p).cache⟩
    obtain rfl := Option.some.inj hp
    exact h.p

theorem rooted_begin (cwd : Cwd) (p : JSString) {cache : Option Cache}
    (h : ∀ c ∈ cache, RootedCache c) :
    Sum.elim (fun x : Vars × JSString => RootedVars x.1)
      (fun o : Outcome => (∀ p ∈ o.1, Rooted p) ∧ ∀ cache ∈ o.2, RootedCache cache)
      ((begin cwd.path p cache).map (·, []) id) := by
  unfold begin
  dsimp only
  split
  · rename_i r hget
    obtain ⟨c, hc, hr⟩ := Option.bind_eq_some_iff.mp hget
    refine ⟨fun p hp => ?_, h⟩
    obtain rfl := Option.some.inj hp
    exact h c hc _ _ hr
  · exact ⟨rooted_resolve cwd [p], .inl ⟨rfl, rfl⟩, h⟩

end

section
variable {D : System} {exts : List JSString} {fuel : ℕ} {request : JSString}
  {paths : List JSString} {caches caches' : Caches}

structure RootedCaches (caches : Caches) : Prop where
  realpath : RootedCache caches.realpath
  path : ∀ request paths filename, caches.path request paths = some filename → Rooted filename

/-- `realpathSync` returns absolute paths only. -/
theorem rooted_realpathSync (h : RootedCaches caches) {p : JSString} {r : Except Thrown JSString}
    (hr : realpathSync D fuel p caches = some (r, caches')) :
    RootedCaches caches' ∧ ∀ filename, r = .ok filename → Rooted filename := by
  obtain ⟨⟨o, cache⟩, hloop, heq⟩ := Option.map_eq_some_iff.mp hr
  obtain ⟨rfl, rfl⟩ := Prod.mk.inj heq
  have hcache : ∀ c ∈ some caches.realpath, RootedCache c := by
    intro c hc
    obtain rfl := Option.some.inj hc
    exact h.realpath
  obtain ⟨hp, hcache'⟩ := (ends_of_loop hloop).invariant (rooted_begin D.cwd p hcache)
    (rooted_round D.cwd _)
  refine ⟨⟨?_, h.path⟩, fun filename hok => ?_⟩
  · cases cache with
    | none => exact h.realpath
    | some cache => exact hcache' cache rfl
  · cases o with
    | none => cases hok
    | some p =>
      obtain rfl := Except.ok.inj hok
      exact hp p rfl

/-- `_findPath` finds absolute paths only. -/
theorem rooted_findPath (h : RootedCaches caches) {r : Except Thrown (Option JSString)}
    (hr : findPath D fuel exts request paths caches = some (r, caches')) :
    RootedCaches caches' ∧ ∀ filename, r = .ok (some filename) → Rooted filename := by
  cases hasked : asked D exts caches request paths with
  | some p =>
    rw [findPath_of_asked fuel hasked] at hr
    obtain ⟨⟨r', caches₁⟩, hreal, heq⟩ := Option.map_eq_some_iff.mp hr
    obtain ⟨rfl, rfl⟩ := Prod.mk.inj heq
    obtain ⟨hcaches, hfilename⟩ := rooted_realpathSync h hreal
    cases r' with
    | error e => exact ⟨hcaches, nofun⟩
    | ok filename =>
      have hrooted := hfilename filename rfl
      refine ⟨⟨hcaches.realpath, fun request' paths' filename' hget => ?_⟩,
        fun filename' hok => ?_⟩
      · dsimp only [Caches.remember] at hget
        split_ifs at hget
        · obtain rfl := Option.some.inj hget
          exact hrooted
        · exact hcaches.path _ _ _ hget
      · cases hok
        exact hrooted
  | none =>
    rw [findPath_apply] at hr
    unfold asked at hasked
    cases hcached : caches.path request (searched request paths) with
    | some filename =>
      rw [hcached] at hr
      obtain ⟨rfl, rfl⟩ := Prod.mk.inj (Option.some.inj hr)
      refine ⟨h, fun filename' hok => ?_⟩
      cases hok
      exact h.path _ _ _ hcached
    | none =>
      rw [hcached] at hr hasked
      dsimp only at hr hasked
      rw [findIn_eq] at hr
      unfold firstFile at hr
      rw [hasked] at hr
      obtain ⟨rfl, rfl⟩ := Prod.mk.inj (Option.some.inj hr)
      exact ⟨h, nofun⟩

/-- A file that is looked up is found under an absolute path. -/
theorem rooted_resolveFilename {V : Type*} {s : Loader V} {parent : Option (Mod V)}
    (h : RootedCaches caches) {r : Except Thrown JSString}
    (hr : s.resolveFilename D fuel request parent caches = some (r, caches')) :
    RootedCaches caches' ∧
      ∀ filename, r = .ok filename → D.native filename = false → Rooted filename := by
  unfold Loader.resolveFilename at hr
  split_ifs at hr with hnative
  · obtain ⟨rfl, rfl⟩ := Prod.mk.inj (Option.some.inj hr)
    refine ⟨h, fun filename hok hfree => ?_⟩
    cases hok
    cases hnative.symm.trans hfree
  · cases hpaths : s.resolveLookupPaths D request parent with
    | none =>
      rw [hpaths] at hr
      obtain ⟨rfl, rfl⟩ := Prod.mk.inj (Option.some.inj hr)
      exact ⟨h, nofun⟩
    | some paths =>
      rw [hpaths] at hr
      obtain ⟨⟨r', caches₁⟩, hfind, heq⟩ :=
        Option.map_eq_some_iff.mp ((Look.orThrow_apply _ _ _).symm.trans hr)
      obtain ⟨rfl, rfl⟩ := Prod.mk.inj heq
      obtain ⟨hcaches, hfilename⟩ := rooted_findPath h hfind
      refine ⟨hcaches, fun filename hok _ => ?_⟩
      match r' with
      | .error e => cases hok
      | .ok none => cases hok
      | .ok (some filename') =>
        cases hok
        exact hfilename filename rfl

end

/-! ### The loader -/

section
variable {V : Type*} {N : Names V} {D : System} {s s' : Loader V} {p p' : Process V}
  {request : JSString} {parent : Option ℕ} {fuel : ℕ}

/-- Only files that were found are in the caches. -/
structure RootedLoader (s : Loader V) : Prop where
  once : Once s
  caches : RootedCaches s.caches
  cache : ∀ filename, s.cache filename ≠ none → Rooted filename

theorem rootedLoader_new (exts paths : List JSString) :
    RootedLoader (.new exts paths : Loader V) :=
  ⟨once_new exts paths, ⟨nofun, nofun⟩, fun _ h => absurd rfl h⟩

theorem RootedLoader.require (h : RootedLoader s)
    (hrequires : Requires D s fuel request parent s') : RootedLoader s' := by
  have honce := h.once.require hrequires
  cases hrequires with
  | throws hfile => exact ⟨honce, (rooted_resolveFilename h.caches hfile).1, h.cache⟩
  | cached hfile => exact ⟨honce, (rooted_resolveFilename h.caches hfile).1, h.cache⟩
  | native hfile => exact ⟨honce, (rooted_resolveFilename h.caches hfile).1, h.cache⟩
  | unread hfile => exact ⟨honce, (rooted_resolveFilename h.caches hfile).1, h.cache⟩
  | @loads filename dir caches hfile hcache hnative hdir =>
    obtain ⟨hcaches, hfilename⟩ := rooted_resolveFilename h.caches hfile
    refine ⟨honce, hcaches, fun filename' hne => ?_⟩
    by_cases hsame : filename' = filename
    · rw [hsame]
      exact hfilename filename rfl hnative
    · refine h.cache filename' fun hnone => hne ?_
      exact (Function.update_of_ne hsame _ _).trans hnone

theorem RootedLoader.step {a : Action V} (h : RootedLoader s)
    (hstep : Modules.step D s a = some s') : RootedLoader s' := by
  have honce := once_step h.once hstep
  cases stepped_of_step hstep with
  | require hrequires => exact h.require hrequires
  | @throws i rest hs =>
    refine ⟨honce, h.caches, fun filename hne => h.cache filename fun hnone => hne ?_⟩
    dsimp only
    by_cases hsame : filename = (s.modules i).filename
    · rw [hsame, Function.update_self]
    · rw [Function.update_of_ne hsame]
      exact hnone
  | _ => exact ⟨honce, h.caches, h.cache⟩

theorem nativeRequire_cases (p : Process V) (caches : Caches) (id : JSString) :
    (p.nativeRequire N caches id).1 = .core caches ∨
      ∃ value, (p.nativeRequire N caches id).1 = .inherited caches value := by
  unfold Process.nativeRequire
  split_ifs
  · exact .inl rfl
  · exact .inl rfl
  · split
    · exact .inr ⟨_, rfl⟩
    · exact .inl rfl

/-- Apart from what is inherited, the process does what the loader does whose core modules are all
that `in` finds. -/
theorem requires_of_process {r : Result V} {compiled : JSString → Bool}
    (h : p.require N D fuel request parent = some (r, compiled)) :
    Requires (N.system D) p.loader fuel request parent (r.loader p.loader) ∨
      ∃ filename caches value, r = .inherited caches value ∧
        p.loader.resolveFilename (N.system D) fuel request (parent.map p.loader.modules)
          p.loader.caches = some (.ok filename, caches) := by
  unfold Process.require at h
  cases hfile : p.loader.resolveFilename (N.system D) fuel request (parent.map p.loader.modules)
      p.loader.caches with
  | none =>
    rw [hfile] at h
    cases h
  | some x =>
    obtain ⟨r', caches⟩ := x
    rw [hfile] at h
    cases r' with
    | error e =>
      obtain ⟨rfl, -⟩ := Prod.mk.inj (Option.some.inj h)
      exact .inl (.throws hfile)
    | ok filename =>
      dsimp only at h
      cases hcache : p.loader.cache filename with
      | some i =>
        rw [hcache] at h
        obtain ⟨rfl, -⟩ := Prod.mk.inj (Option.some.inj h)
        exact .inl (.cached hfile hcache)
      | none =>
        rw [hcache] at h
        cases hread : N.read filename with
        | some value =>
          rw [hread] at h
          obtain ⟨rfl, -⟩ := Prod.mk.inj (Option.some.inj h)
          exact .inr ⟨filename, caches, value, rfl, rfl⟩
        | none =>
          rw [hread] at h
          dsimp only at h
          split_ifs at h with hhas
          · obtain hr := congrArg Prod.fst (Option.some.inj h)
            dsimp only at hr
            rcases nativeRequire_cases p caches filename with hcore | ⟨value, hvalue⟩
            · obtain rfl := hr.symm.trans hcore
              exact .inl (.native hfile hcache hhas)
            · exact .inr ⟨filename, caches, value, hr.symm.trans hvalue, rfl⟩
          · obtain ⟨rfl, -⟩ := Prod.mk.inj (Option.some.inj h)
            dsimp only [Result.loader, Loader.load]
            cases hdir : dirname filename with
            | none => exact .inl (.unread hfile hcache hdir)
            | some dir => exact .inl (.loads hfile hcache (Bool.eq_false_iff.mpr hhas) hdir)

theorem RootedLoader.process {a : Action V} (h : RootedLoader p.loader)
    (hstep : p.step N D a = some p') : RootedLoader p'.loader := by
  cases a with
  | require fuel request parent =>
    dsimp only [Process.step] at hstep
    split_ifs at hstep
    obtain ⟨⟨r, compiled⟩, hrequire, rfl⟩ := Option.map_eq_some_iff.mp hstep
    rcases requires_of_process hrequire with hrequires | ⟨filename, caches, value, rfl, hfile⟩
    · exact h.require hrequires
    · exact ⟨h.once.congr rfl rfl rfl fun _ => ⟨rfl, rfl⟩,
        (rooted_resolveFilename h.caches hfile).1, h.cache⟩
  | _ =>
    dsimp only [Process.step] at hstep
    obtain ⟨s, hs, rfl⟩ := Option.map_eq_some_iff.mp hstep
    exact h.step hs

/-- What is not the name of a core module is looked up as if there were none, if it is not
inherited. -/
theorem resolveFilename_eq_user (hhas : N.has request = false) (s : Loader V)
    (parent : Option (Mod V)) :
    s.resolveFilename (N.system D) fuel request parent =
      s.resolveFilename D.user fuel request parent := by
  have hnative : ((N.system D).native request) ≠ true := ne_true_of_eq_false hhas
  unfold Loader.resolveFilename
  rw [if_neg hnative, if_neg (by nofun : ¬ D.user.native request = true)]
  have hpaths : s.resolveLookupPaths (N.system D) request parent =
      s.resolveLookupPaths D.user request parent := by
    unfold Loader.resolveLookupPaths
    rw [if_neg hnative, if_neg (by nofun : ¬ D.user.native request = true)]
    rfl
  have hfind : ∀ paths, findPath (N.system D) fuel s.exts request paths =
      findPath D.user fuel s.exts request paths := by
    intro paths
    unfold findPath
    simp only [findIn_eq]
    rfl
  simp only [hpaths, hfind]

theorem Names.has_of_proto (hnatives : N.natives request = false) :
    N.has request = (N.proto request).isSome := by
  unfold Names.has
  rw [hnatives, Bool.false_or]

theorem Names.relative_of_rooted {filename : JSString} (h : Rooted filename) :
    N.has filename = false ∧ N.read filename = none := by
  have hhas : N.has filename = false :=
    Bool.eq_false_iff.mpr fun htrue => N.relative filename htrue h
  refine ⟨hhas, ?_⟩
  have hproto : N.proto filename = none :=
    Option.isNone_iff_eq_none.mp (by simpa using (Bool.or_eq_false_iff.mp hhas).2)
  unfold Names.read
  rw [hproto]
  rfl

/-! ### The lookup -/

section
variable {paths : List JSString} {filename path : JSString}

theorem resolveFilename_user (fuel : ℕ)
    (hpaths : s.resolveLookupPaths D.user request (parent.map s.modules) = some paths) :
    s.resolveFilename D.user fuel request (parent.map s.modules) s.caches =
      (findPath D.user fuel s.exts request paths s.caches).map fun (r, caches') =>
        (r.bind fun o => o.elim (.error (cannotFind request)) .ok, caches') := by
  unfold Loader.resolveFilename
  rw [if_neg (by nofun : ¬ D.user.native request = true), hpaths]
  exact Look.orThrow_apply _ _ _

theorem asks_user (hpaths : s.resolveLookupPaths D.user request (parent.map s.modules) = some paths) :
    s.asks D.user request parent = asked D.user s.exts s.caches request paths := by
  unfold Loader.asks
  rw [if_neg (by nofun : ¬ D.user.native request = true), hpaths]
  rfl

/-- `path.dirname` throws. -/
theorem looks_dirname (fuel : ℕ)
    (hpaths : s.resolveLookupPaths D.user request (parent.map s.modules) = none) :
    s.resolveFilename D.user fuel request (parent.map s.modules) s.caches =
      some (.error .dirname, s.caches) := by
  unfold Loader.resolveFilename
  rw [if_neg (by nofun : ¬ D.user.native request = true), hpaths]
  rfl

/-- `Module._pathCache` has the file. -/
theorem looks_noted (fuel : ℕ)
    (hpaths : s.resolveLookupPaths D.user request (parent.map s.modules) = some paths)
    (hnoted : s.caches.path request (searched request paths) = some filename) :
    s.resolveFilename D.user fuel request (parent.map s.modules) s.caches =
      some (.ok filename, s.caches) := by
  rw [resolveFilename_user fuel hpaths, findPath_apply, hnoted]
  rfl

/-- None of the paths is a file. -/
theorem looks_cannotFind (fuel : ℕ)
    (hpaths : s.resolveLookupPaths D.user request (parent.map s.modules) = some paths)
    (hnoted : s.caches.path request (searched request paths) = none)
    (hasks : s.asks D.user request parent = none) :
    s.resolveFilename D.user fuel request (parent.map s.modules) s.caches =
      some (.error (cannotFind request), s.caches) := by
  rw [asks_user hpaths] at hasks
  unfold asked at hasks
  rw [hnoted] at hasks
  rw [resolveFilename_user fuel hpaths, findPath_apply, hnoted, findIn_eq]
  unfold firstFile
  dsimp only at hasks ⊢
  rw [hasks]
  rfl

/-- One of them is. -/
theorem looks_real (fuel : ℕ) (hasks : s.asks D.user request parent = some path) :
    ∃ note : JSString → Caches → Caches,
      s.resolveFilename D.user fuel request (parent.map s.modules) s.caches =
        (realpathSync D fuel path s.caches).map fun (r, caches') =>
          (r, r.toOption.elim caches' (note · caches')) := by
  cases hpaths : s.resolveLookupPaths D.user request (parent.map s.modules) with
  | none =>
    unfold Loader.asks at hasks
    rw [if_neg (by nofun : ¬ D.user.native request = true), hpaths] at hasks
    cases hasks
  | some paths =>
    refine ⟨fun filename caches' => caches'.remember request (searched request paths) filename, ?_⟩
    rw [resolveFilename_user fuel hpaths, findPath_of_asked fuel (asks_user hpaths ▸ hasks),
      Option.map_map]
    congr 1
    funext ⟨r, caches'⟩
    cases r <;> rfl

/-- A call of `realpathSync` ends in one way. -/
theorem realpathSync_unique {fuel' : ℕ} {caches caches₁ caches₂ : Caches}
    {r₁ r₂ : Except Thrown JSString} (h₁ : realpathSync D fuel path caches = some (r₁, caches₁))
    (h₂ : realpathSync D fuel' path caches = some (r₂, caches₂)) : r₁ = r₂ := by
  obtain ⟨o₁, hloop₁, heq₁⟩ := Option.map_eq_some_iff.mp h₁
  obtain ⟨o₂, hloop₂, heq₂⟩ := Option.map_eq_some_iff.mp h₂
  obtain rfl := Ends.unique (ends_of_loop hloop₁) (ends_of_loop hloop₂)
  exact congrArg Prod.fst (heq₁.symm.trans heq₂)

theorem realpathSync_error {caches caches' : Caches} {e : Thrown}
    (h : realpathSync D fuel path caches = some (.error e, caches')) : e = .realpath := by
  obtain ⟨⟨o, cache⟩, -, heq⟩ := Option.map_eq_some_iff.mp h
  cases o with
  | none => exact (Except.error.inj (congrArg Prod.fst heq)).symm
  | some filename => cases heq

/-- A lookup that nothing stops finds a file that can be loaded, or none. -/
theorem Unhindered.looks (h : Unhindered D s request parent) : ∃ r caches,
    s.Looks D request parent r caches ∧ (r = .error (cannotFind request) ∨
      ∃ filename, r = .ok filename ∧
        (s.cache filename = none → Modules.dirname filename ≠ none)) := by
  obtain ⟨paths, hpaths⟩ := Option.ne_none_iff_exists'.mp h.paths
  cases hasks : s.asks D.user request parent with
  | some path =>
    obtain ⟨fuel, filename, caches, hreal⟩ := h.realpath path hasks
    obtain ⟨note, hnote⟩ := looks_real fuel hasks
    rw [hreal] at hnote
    exact ⟨_, _, ⟨fuel, hnote⟩, .inr ⟨filename, rfl, h.dirname filename (.real hasks hreal)⟩⟩
  | none =>
    cases hnoted : s.caches.path request (searched request paths) with
    | some filename =>
      exact ⟨_, _, ⟨0, looks_noted 0 hpaths hnoted⟩,
        .inr ⟨filename, rfl, h.dirname filename (.noted hpaths hnoted)⟩⟩
    | none => exact ⟨_, _, ⟨0, looks_cannotFind 0 hpaths hnoted hasks⟩, .inl rfl⟩

/-- What a lookup that finds something, or nothing, was not stopped by. -/
theorem unhindered_of_looks {r : Except Thrown JSString} {caches : Caches}
    (h : s.Looks D request parent r caches) (hr : r = .error (cannotFind request) ∨
      ∃ filename, r = .ok filename ∧
        (s.cache filename = none → Modules.dirname filename ≠ none)) :
    Unhindered D s request parent := by
  obtain ⟨fuel, hlooks⟩ := h
  cases hpaths : s.resolveLookupPaths D.user request (parent.map s.modules) with
  | none =>
    obtain ⟨rfl, -⟩ := Prod.mk.inj (Option.some.inj ((looks_dirname fuel hpaths).symm.trans hlooks))
    rcases hr with hr | ⟨filename, hr, -⟩ <;> cases hr
  | some paths =>
    have hsome : s.resolveLookupPaths D.user request (parent.map s.modules) ≠ none := by
      rw [hpaths]
      exact Option.some_ne_none paths
    cases hasks : s.asks D.user request parent with
    | some path =>
      obtain ⟨note, hnote⟩ := looks_real fuel hasks
      obtain ⟨⟨r', caches'⟩, hreal, heq⟩ := Option.map_eq_some_iff.mp (hnote.symm.trans hlooks)
      obtain ⟨rfl, -⟩ := Prod.mk.inj heq
      rcases hr with rfl | ⟨filename, rfl, hdir⟩
      · cases realpathSync_error hreal
      · refine ⟨hsome, fun p hp => ?_, fun filename' hlocated hcache => ?_⟩
        · obtain rfl := Option.some.inj (hasks.symm.trans hp)
          exact ⟨fuel, filename, caches', hreal⟩
        · cases hlocated with
          | noted hpaths' hnoted =>
            rw [asks_user hpaths'] at hasks
            unfold asked at hasks
            rw [hnoted] at hasks
            cases hasks
          | real hasks' hreal' =>
            obtain rfl := Option.some.inj (hasks.symm.trans hasks')
            obtain rfl := Except.ok.inj (realpathSync_unique hreal hreal')
            exact hdir hcache
    | none =>
      refine ⟨hsome, fun p hp => ?_, fun filename' hlocated hcache => ?_⟩
      · cases hasks.symm.trans hp
      · cases hlocated with
        | noted hpaths' hnoted =>
          obtain ⟨rfl, -⟩ :=
            Prod.mk.inj (Option.some.inj ((looks_noted fuel hpaths' hnoted).symm.trans hlooks))
          rcases hr with hr | ⟨filename, hr, hdir⟩
          · cases hr
          · obtain rfl := Except.ok.inj hr
            exact hdir hcache
        | real hasks' => cases hasks.symm.trans hasks'

end

/-! ### Names -/

/-- A name that is not inherited is looked up. -/
theorem lawful_of_free (h : RootedLoader p.loader) (hhas : N.has request = false)
    (hfree : Unhindered D p.loader request parent) :
    ∃ r, p.Requires N D request parent r ∧ Lawful D p.loader request parent r := by
  obtain ⟨r, caches, hlooks, hr⟩ := hfree.looks
  obtain ⟨fuel, hfuel⟩ := hlooks
  have hrequire : ∀ x, p.require N D fuel request parent = some x →
      p.Requires N D request parent x.1 := fun x hx => ⟨fuel, x.2, hx⟩
  unfold Process.require at hrequire
  rw [resolveFilename_eq_user hhas, hfuel] at hrequire
  rcases hr with rfl | ⟨filename, rfl, hdir⟩
  · exact ⟨_, hrequire _ rfl, .cannotFind ⟨fuel, hfuel⟩⟩
  · have hrooted : Rooted filename := (rooted_resolveFilename h.caches hfuel).2 filename rfl rfl
    obtain ⟨hfile, hread⟩ := N.relative_of_rooted hrooted
    dsimp only at hrequire
    rw [hread, hfile] at hrequire
    cases hcache : p.loader.cache filename with
    | some i =>
      rw [hcache] at hrequire
      exact ⟨_, hrequire _ rfl,
        .cached ⟨fuel, hfuel⟩ hcache ((h.once.cache filename i).mp hcache).2.1⟩
    | none =>
      rw [hcache] at hrequire
      obtain ⟨dir, hdir⟩ := Option.ne_none_iff_exists'.mp (hdir hcache)
      exact ⟨_, hrequire _ rfl, .loads ⟨fuel, hfuel⟩ hcache hdir⟩

/-- What is lawful was not stopped. -/
theorem Lawful.unhindered {r : Result V} (h : Lawful D s request parent r) :
    Unhindered D s request parent := by
  cases h with
  | cannotFind hlooks => exact unhindered_of_looks hlooks (.inl rfl)
  | cached hlooks hcache =>
    refine unhindered_of_looks hlooks (.inr ⟨_, rfl, fun hnone => ?_⟩)
    cases hnone.symm.trans hcache
  | loads hlooks _ hdir =>
    refine unhindered_of_looks hlooks (.inr ⟨_, rfl, fun _ => ?_⟩)
    rw [hdir]
    exact Option.some_ne_none _

/-- An inherited name is taken for that of a core module. -/
theorem not_lawful_of_proto (h : RootedLoader p.loader) (hhas : N.has request = true)
    {r : Result V} (hr : p.Requires N D request parent r) :
    ¬ Lawful D p.loader request parent r := by
  obtain ⟨fuel, compiled, hrequire⟩ := hr
  have hcache : p.loader.cache request = none := by
    by_contra hne
    exact N.relative request hhas (h.cache request hne)
  have hfile : p.loader.resolveFilename (N.system D) fuel request (parent.map p.loader.modules)
      p.loader.caches = some (.ok request, p.loader.caches) := by
    unfold Loader.resolveFilename
    rw [if_pos (show (N.system D).native request = true from hhas)]
    rfl
  unfold Process.require at hrequire
  rw [hfile] at hrequire
  dsimp only at hrequire
  rw [hcache, hhas] at hrequire
  have hresult : (∃ caches, r = .core caches) ∨ ∃ caches value, r = .inherited caches value := by
    cases hread : N.read request with
    | some value =>
      rw [hread] at hrequire
      exact .inr ⟨_, value, (congrArg Prod.fst (Option.some.inj hrequire)).symm⟩
    | none =>
      rw [hread] at hrequire
      have hr := congrArg Prod.fst (Option.some.inj hrequire)
      rcases nativeRequire_cases p p.loader.caches request with hcore | ⟨value, hvalue⟩
      · exact .inl ⟨_, hr.symm.trans hcore⟩
      · exact .inr ⟨_, value, hr.symm.trans hvalue⟩
  intro hlawful
  rcases hresult with ⟨caches, rfl⟩ | ⟨caches, value, rfl⟩
  · cases hlawful
  · cases hlawful

/-- At any time, the module of the file that is found is what `require` of a name that no core
module has comes to, or that there is none, if and only if `Object.prototype` has no such property
and nothing stops the lookup. -/
theorem user_module_iff (exts paths : List JSString)
    (h : Reach (Process.step N D) (fun _ _ => True) (.new exts paths) p)
    (hnatives : N.natives request = false) (parent : Option ℕ) :
    (∃ r, p.Requires N D request parent r ∧ Lawful D p.loader request parent r) ↔
      N.proto request = none ∧ Unhindered D p.loader request parent := by
  have hrooted : RootedLoader p.loader :=
    h.invariant (P := fun p => RootedLoader p.loader) (rootedLoader_new exts paths)
      fun _ _ _ hs _ hstep => hs.process hstep
  have hhas := N.has_of_proto hnatives
  constructor
  · rintro ⟨r, hr, hlawful⟩
    refine ⟨?_, hlawful.unhindered⟩
    cases hproto : N.proto request with
    | none => rfl
    | some value =>
      rw [hproto] at hhas
      exact absurd hlawful (not_lawful_of_proto hrooted hhas hr)
  · rintro ⟨hproto, hfree⟩
    rw [hproto] at hhas
    exact lawful_of_free hrooted hhas hfree

end

/-- One core module, and one property of `Object.prototype`. -/
def plain : Names Unit where
  natives := fun id => id = js "fs"
  proto := fun id => if id = js "toString" then some ⟨true, none⟩ else none
  relative := by
    intro id h hslash
    rcases Bool.or_eq_true_iff.mp h with hnative | hproto
    · rw [of_decide_eq_true hnative] at hslash
      exact absurd hslash (by decide +kernel)
    · split_ifs at hproto with hid
      · rw [hid] at hslash
        exact absurd hslash (by decide +kernel)
      · cases hproto

theorem user_module_iff_shelf : ∃ p, run (Process.step plain (system shelf)) (.new [] [])
      [.require 9 (js "/m") none, .ret] = some p ∧
    ((∃ r, p.Requires plain (system shelf) (js "/m") none r ∧
      Lawful (system shelf) p.loader (js "/m") none r) ↔
      plain.proto (js "/m") = none ∧ Unhindered (system shelf) p.loader (js "/m") none) := by
  have hrun : (run (Process.step plain (system shelf)) (.new [] [])
      [.require 9 (js "/m") none, .ret]).isSome = true := by decide +kernel
  obtain ⟨p, hp⟩ := Option.isSome_iff_exists.mp hrun
  exact ⟨p, hp, user_module_iff [] [] (reach_of_run hp fun _ _ => trivial)
    (by decide +kernel) none⟩

/-- `require('toString')` returns a property of a function. -/
theorem inherited_module : ¬ ∀ (N : Names Unit) (D : System) (exts paths : List JSString)
    (p : Process Unit) (request : JSString) (parent : Option ℕ),
    Reach (Process.step N D) (fun _ _ => True) (.new exts paths) p → N.natives request = false →
    ∃ r, p.Requires N D request parent r ∧ Lawful D p.loader request parent r := by
  intro h
  obtain ⟨r, hr, hlawful⟩ :=
    h plain (system shelf) [] [] (.new [] []) (js "toString") none .refl (by decide +kernel)
  exact not_lawful_of_proto (rootedLoader_new [] []) (by decide +kernel) hr hlawful

example : ((Process.new [] []).require plain (system shelf) 9 (js "toString") none).map
    (fun x => x.1 matches .inherited _ ⟨true, none⟩) = some true := by decide +kernel

end NodeJS.Modules
