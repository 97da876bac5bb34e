import Mathlib.Data.List.Nodup
import Mathlib.Data.List.Perm.Subperm
import NodeJS.Fs.Tree
import NodeJS.Lib.Nesting
import NodeJS.Modules.Once
import NodeJS.Modules.Search

/-! Each `require` comes to an end if the bodies do, and a file is loaded once. -/
namespace NodeJS.Modules
open NodeJS.Path NodeJS.Fs Lib

variable {V : Type*} {D : System} {s s' : Loader V} {request : JSString} {parent : Option ℕ}
  {fuel i : ℕ}

/-- The path for which the `require` calls `realpathSync`, if it does. -/
def Loader.asks (D : System) (s : Loader V) (request : JSString) (parent : Option ℕ) :
    Option JSString :=
  if D.native request then none
  else (s.resolveLookupPaths D request (parent.map s.modules)).bind
    fun paths => asked D s.exts s.caches request paths

/-- The links of the path that is found can be replaced. -/
def Resolvable (D : System) (s : Loader V) : Action V → Prop
  | .require _ request parent => ∀ p ∈ s.asks D request parent, Clear D p
  | _ => True

/-- What `_findPath` did not find is thrown for. -/
theorem Look.orThrow_apply (m : Look (Option JSString)) (e : Thrown) (caches : Caches) :
    ((do match ← m with
      | some filename => pure filename
      | none => throw e : Look JSString) caches) =
    (m caches).map fun (r, caches') => (r.bind fun o => o.elim (.error e) .ok, caches') := by
  rw [Look.bind_apply]
  cases m caches with
  | none => rfl
  | some x =>
    obtain ⟨r, caches'⟩ := x
    match r with
    | .error e => rfl
    | .ok none => rfl
    | .ok (some filename) => rfl

theorem resolveFilename_ends (hclear : ∀ p ∈ s.asks D request parent, Clear D p)
    (hsound : s.caches.Sound D) :
    (∃ fuel x, s.resolveFilename D fuel request (parent.map s.modules) s.caches = some x) ∧
      ∀ fuel x, s.resolveFilename D fuel request (parent.map s.modules) s.caches = some x →
        x.2.Sound D := by
  unfold Loader.asks at hclear
  unfold Loader.resolveFilename
  split_ifs with hnative
  · refine ⟨⟨0, _, rfl⟩, fun fuel x hx => ?_⟩
    obtain rfl := Option.some.inj hx
    exact hsound
  · rw [if_neg hnative] at hclear
    cases hpaths : s.resolveLookupPaths D request (parent.map s.modules) with
    | none =>
      refine ⟨⟨0, _, rfl⟩, fun fuel x hx => ?_⟩
      obtain rfl := Option.some.inj hx
      exact hsound
    | some paths =>
      rw [hpaths] at hclear
      obtain ⟨⟨fuel, x, hx⟩, hall⟩ := findPath_ends hclear hsound
      dsimp only
      refine ⟨⟨fuel, _, (Look.orThrow_apply _ _ _).trans (congrArg _ hx)⟩, fun fuel y hy => ?_⟩
      obtain ⟨x, hx, rfl⟩ := Option.map_eq_some_iff.mp ((Look.orThrow_apply _ _ _).symm.trans hy)
      exact hall fuel x hx

/-- The search for the file comes to an end. -/
theorem require_ends (hclear : ∀ p ∈ s.asks D request parent, Clear D p)
    (hsound : s.caches.Sound D) : ∃ fuel s', s.require D fuel request parent = some s' := by
  obtain ⟨⟨fuel, ⟨r, caches⟩, hx⟩, -⟩ := resolveFilename_ends hclear hsound
  refine ⟨fuel, ?_⟩
  unfold Loader.require
  rw [hx]
  cases r with
  | error e => exact ⟨_, rfl⟩
  | ok filename =>
    dsimp only
    cases s.cache filename with
    | some i => exact ⟨_, rfl⟩
    | none =>
      dsimp only
      split_ifs <;> exact ⟨_, rfl⟩

theorem sound_new (exts paths : List JSString) :
    (Loader.new exts paths : Loader V).caches.Sound D := by
  refine ⟨rfl, fun cache hcache key val hval => ?_⟩
  obtain rfl := Option.some.inj hcache
  exact absurd hval nofun

theorem sound_step {a : Action V} (hsound : s.caches.Sound D) (hclear : Resolvable D s a)
    (hstep : step D s a = some s') : s'.caches.Sound D := by
  cases stepped_of_step hstep with
  | require hrequires =>
    obtain ⟨r, hfound⟩ := hrequires.found
    exact (resolveFilename_ends hclear hsound).2 _ _ hfound
  | _ => exact hsound

/-! ### The calls that are running -/

theorem moves_step {a : Action V} (hstep : step D s a = some s') : Moves s.stack s'.stack := by
  cases stepped_of_step hstep with
  | require hrequires =>
    cases hrequires with
    | loads => exact .inr (.inl ⟨_, rfl⟩)
    | _ => exact .inl rfl
  | ret hs => exact .inr (.inr ⟨_, hs⟩)
  | throws hs => exact .inr (.inr ⟨_, hs⟩)
  | _ => exact .inl rfl

/-- A file has one module that is running. -/
theorem Once.length_stack_le (h : Once s) {files : List JSString}
    (hfiles : ∀ i ∈ s.stack, (s.modules i).filename ∈ files) : s.stack.length ≤ files.length := by
  have hinj : ∀ i ∈ s.stack, ∀ j ∈ s.stack, (s.modules i).filename = (s.modules j).filename →
      i = j := by
    intro i hi j hj hsame
    have hi' := (h.cache _ i).mpr ⟨h.made i hi, hsame, .inl hi⟩
    have hj' := (h.cache _ j).mpr ⟨h.made j hj, rfl, .inl hj⟩
    exact Option.some.inj (hi'.symm.trans hj')
  have hnodup : (s.stack.map fun i => (s.modules i).filename).Nodup :=
    List.Nodup.map_on hinj h.nodup
  have hsub : (s.stack.map fun i => (s.modules i).filename) ⊆ files := by
    intro filename hmem
    obtain ⟨i, hi, rfl⟩ := List.mem_map.mp hmem
    exact hfiles i hi
  have hlength := (List.subperm_of_subset hnodup hsub).length_le
  rwa [List.length_map] at hlength

/-- A module whose body is running is done at last, if each body takes finitely many steps and the
modules are of finitely many files. -/
theorem body_ends {states : ℕ → Loader V} (honce : ∀ n, Once (states n))
    (hmoves : ∀ n, Moves (states n).stack (states (n + 1)).stack) {rest : List ℕ}
    (hstack : i :: rest <:+ (states 0).stack) {files : List JSString}
    (hfiles : ∀ n, ∀ j ∈ (states n).stack, ((states n).modules j).filename ∈ files)
    (hbodies : ∀ j, ∃ n, ∀ m, n ≤ m → (states m).stack.head? ≠ some j) :
    ∃ n, (states n).stack = rest := by
  by_contra hnever
  push Not at hnever
  have hcovered : ∀ n, i :: rest <:+ (states n).stack := by
    intro n
    induction n with
    | zero => exact hstack
    | succ n ih => exact (hmoves n).uncovers ih (hnever (n + 1))
  have hne : ∀ n, (states n).stack ≠ [] := by
    intro n hnil
    have hsuffix := hcovered n
    rw [hnil] at hsuffix
    exact absurd (List.suffix_nil.mp hsuffix) (List.cons_ne_nil i rest)
  obtain ⟨j, hoften⟩ :=
    often_on_top hmoves (fun n => (honce n).length_stack_le (hfiles n)) hne
  obtain ⟨n, hn⟩ := hbodies j
  obtain ⟨m, hm, htop⟩ := hoften n
  exact hn m hm htop

/-! ### A module that is done -/

/-- The module is loaded from the file, with these exports. -/
structure Completed (s : Loader V) (i : ℕ) (filename : JSString) (exports : Option V) : Prop where
  made : i < s.count
  filename : (s.modules i).filename = filename
  exports : (s.modules i).exports = exports
  loaded : (s.modules i).loaded = true

theorem Completed.congr {filename : JSString} {exports : Option V}
    (h : Completed s i filename exports) (hcount : s.count ≤ s'.count)
    (hmodule : s'.modules i = s.modules i) : Completed s' i filename exports := by
  refine ⟨Nat.lt_of_lt_of_le h.made hcount, ?_, ?_, ?_⟩
  · rw [hmodule]
    exact h.filename
  · rw [hmodule]
    exact h.exports
  · rw [hmodule]
    exact h.loaded

/-- The exports of a module that is done change when they are assigned to. -/
theorem completed_step {filename : JSString} {exports : Option V} {a : Action V} (honce : Once s)
    (h : Completed s i filename exports) (ha : ∀ v, a ≠ .exports i v)
    (hstep : step D s a = some s') : Completed s' i filename exports := by
  cases stepped_of_step hstep with
  | require hrequires =>
    cases hrequires with
    | loads =>
      exact h.congr (Nat.le_succ _) (Function.update_of_ne (Nat.ne_of_lt h.made) _ _)
    | _ => exact h.congr le_rfl rfl
  | exports j v =>
    have hne : i ≠ j := fun heq => ha v (heq ▸ rfl)
    exact h.congr le_rfl (Function.update_of_ne hne _ _)
  | modulePaths j paths =>
    by_cases heq : i = j
    · subst heq
      have hself : Function.update s.modules i { s.modules i with paths := paths } i =
          { s.modules i with paths := paths } := Function.update_self ..
      exact ⟨h.made, (congrArg Mod.filename hself).trans h.filename,
        (congrArg Mod.exports hself).trans h.exports,
        (congrArg Mod.loaded hself).trans h.loaded⟩
    · exact h.congr le_rfl (Function.update_of_ne heq _ _)
  | ret hs =>
    rename_i j rest
    have hne : i ≠ j := by
      rintro rfl
      exact absurd (h.loaded.symm.trans (honce.running i (hs ▸ List.mem_cons_self))) nofun
    exact h.congr le_rfl (Function.update_of_ne hne _ _)
  | _ => exact h.congr le_rfl rfl

/-- A `require` that finds the file of a module that is done returns its exports. -/
theorem Completed.returned {filename : JSString} {exports : Option V} (honce : Once s)
    (h : Completed s i filename exports) {caches : Caches}
    (hfile : s.resolveFilename D fuel request (parent.map s.modules) s.caches =
      some (.ok filename, caches)) (hstep : step D s (.require fuel request parent) = some s') :
    s' = { s with caches := caches, answer := .returned exports } := by
  have hcache : s.cache filename = some i :=
    (honce.cache filename i).mpr ⟨h.made, h.filename, .inr h.loaded⟩
  obtain ⟨-, hrequire⟩ := Option.ite_none_right_eq_some.mp hstep
  unfold Loader.require at hrequire
  rw [hfile] at hrequire
  dsimp only at hrequire
  rw [hcache] at hrequire
  dsimp only at hrequire
  rw [h.exports] at hrequire
  exact (Option.some.inj hrequire).symm

/-- The loader, as long as the links of the paths can be replaced: the search for a file ends; a
`require` that loads comes to an end, if each body takes finitely many steps; a file is loaded again
only if that failed before; who requires a module that is done gets its exports; the cache has the
modules that are running or done. -/
theorem required (exts paths : List JSString)
    (h : Reach (step D) (Resolvable D) (.new exts paths) s) :
    (∀ request parent, (∀ i ∈ parent, i < s.count) →
      (∀ p ∈ s.asks D request parent, Clear D p) →
      ∃ fuel s', step D s (.require fuel request parent) = some s') ∧
    (∀ (states : ℕ → Loader V) i rest (files : List JSString), states 0 = s →
      (∀ n, Step (step D) (Resolvable D) (states n) (states (n + 1))) → i :: rest <:+ s.stack →
      (∀ n, ∀ j ∈ (states n).stack, ((states n).modules j).filename ∈ files) →
      (∀ j, ∃ n, ∀ m, n ≤ m → (states m).stack.head? ≠ some j) → ∃ n, (states n).stack = rest) ∧
    (∀ i j, i < j → j < s.count → (s.modules i).filename = (s.modules j).filename →
      i ∉ s.stack ∧ (s.modules i).loaded = false) ∧
    (∀ i s', i < s.count → (s.modules i).loaded = true →
      Reach (step D) (fun s a => Resolvable D s a ∧ ∀ v, a ≠ .exports i v) s s' →
      ∀ fuel request parent caches s'',
        s'.resolveFilename D fuel request (parent.map s'.modules) s'.caches =
          some (.ok (s.modules i).filename, caches) →
        step D s' (.require fuel request parent) = some s'' →
        s''.answer = .returned (s.modules i).exports ∧ s''.stack = s'.stack) ∧
    ∀ filename, s.cache filename ≠ none ↔
      ∃ i < s.count, (s.modules i).filename = filename ∧
        (i ∈ s.stack ∨ (s.modules i).loaded = true) := by
  have hinv : Once s ∧ s.caches.Sound D := by
    refine h.invariant (P := fun s => Once s ∧ s.caches.Sound D)
      ⟨once_new exts paths, sound_new exts paths⟩ fun s a s' hs hclear hstep => ?_
    exact ⟨once_step hs.1 hstep, sound_step hs.2 hclear hstep⟩
  obtain ⟨honce, hsound⟩ := hinv
  refine ⟨fun request parent hparent hclear => ?_, ?_, fun i j hij hj hsame => ?_, ?_,
    fun filename => ?_⟩
  · obtain ⟨fuel, s', hs'⟩ := require_ends hclear hsound
    exact ⟨fuel, s', (if_pos hparent).trans hs'⟩
  · intro states i rest files hzero hsteps hstack hfiles hbodies
    have hall : ∀ n, Once (states n) := by
      intro n
      induction n with
      | zero => exact hzero ▸ honce
      | succ n ih =>
        obtain ⟨a, -, hstep⟩ := hsteps n
        exact once_step ih hstep
    have hmoves : ∀ n, Moves (states n).stack (states (n + 1)).stack := by
      intro n
      obtain ⟨a, -, hstep⟩ := hsteps n
      exact moves_step hstep
    exact body_ends hall hmoves (hzero ▸ hstack) hfiles hbodies
  · have hdead := not_or.mp (honce.earlier i j hij hj hsame)
    exact ⟨hdead.1, Bool.eq_false_iff.mpr hdead.2⟩
  · intro i s' hi hloaded hreach fuel request parent caches s'' hfile hstep
    have hkept : Once s' ∧ Completed s' i (s.modules i).filename (s.modules i).exports := by
      refine hreach.invariant
        (P := fun s' => Once s' ∧ Completed s' i (s.modules i).filename (s.modules i).exports)
        ⟨honce, hi, rfl, rfl, hloaded⟩ fun s₁ a s₂ hs ha hstep => ?_
      exact ⟨once_step hs.1 hstep, completed_step hs.1 hs.2 ha.2 hstep⟩
    obtain rfl := hkept.2.returned hkept.1 hfile hstep
    exact ⟨rfl, rfl⟩
  · rw [Option.ne_none_iff_exists']
    exact exists_congr fun i => honce.cache filename i

/-- A process in the root of the tree, without packages and native modules. -/
def system (T : Tree) : System where
  files := T.files
  isDirectory := fun p => (T.find [] p).map fun l => decide (T.IsDir l)
  main := fun _ => none
  cwd := ⟨js "/", rfl⟩
  native := fun _ => false

theorem Clear.of_hard {D : System} {p : JSString} (h : meet D.files [] (start D.cwd p) = .hard) :
    Clear D p := by
  refine ⟨⟨_, .hard h⟩, fun _ _ hmet => absurd hmet (not_met_of_hard h), ?_⟩
  intro cs₁ cs₂ id base₁ base₂ link₁ link₂ rest₁ rest₂ h₁ _ hmeet
  rcases Relation.ReflTransGen.cases_head h₁ with rfl | ⟨cs, hexpands, -⟩
  · exact absurd (h.symm.trans hmeet) nofun
  · exact absurd hexpands (not_expands_of_hard h)

/-- The file `/m`. -/
def shelf : Tree := ⟨[(js "m", .file)], fun l => ⟨1, l.length.toUInt64⟩, 40⟩

theorem required_shelf : ∃ s, run (step (system shelf)) (.new [] [] : Loader Unit)
      [.require 9 (js "/m") none, .ret] = some s ∧ (s.modules 0).loaded = true ∧
    (s.cache (js "/m") ≠ none ↔ ∃ i < s.count, (s.modules i).filename = js "/m" ∧
      (i ∈ s.stack ∨ (s.modules i).loaded = true)) := by
  have hrun : (run (step (system shelf)) (.new [] [] : Loader Unit)
      [.require 9 (js "/m") none, .ret]).map (fun s => (s.modules 0).loaded) = some true := by
    decide +kernel
  obtain ⟨s, hs, hloaded⟩ := Option.map_eq_some_iff.mp hrun
  have hclear : Resolvable (system shelf) (.new [] [] : Loader Unit)
      (.require 9 (js "/m") none) := by
    intro p hp
    have hasks : (Loader.new [] [] : Loader Unit).asks (system shelf) (js "/m") none =
        some (js "/m") := by decide +kernel
    obtain rfl := Option.some.inj (hasks.symm.trans hp)
    exact .of_hard (by decide +kernel)
  have hreach : Reach (step (system shelf)) (Resolvable (system shelf)) (.new [] []) s :=
    reach_of_along hs fun _ _ => ⟨hclear, fun _ _ => ⟨trivial, trivial⟩⟩
  exact ⟨s, hs, hloaded, (required [] [] hreach).2.2.2.2 (js "/m")⟩

/-- `/x` leads to the file `/c/y`. As text, its target is `/y`, which leads back to `/x`. -/
def maze : Tree where
  entries := [(js "b", .link (js "/c/d")), (js "c", .dir [(js "d", .dir []), (js "y", .file)]),
    (js "x", .link (js "/b/../y")), (js "y", .link (js "/x"))]
  numbers := fun l => ⟨1, ([[], [js "b"], [js "c"], [js "c", js "d"], [js "c", js "y"], [js "x"]].idxOf
    l).toUInt64⟩
  maxSymlinks := 40

/-- Both links are in the cache, and the loop begins with one of them or has come to it. -/
def Spins (x : Vars × JSString) : Prop :=
  x.1.get (js "/x") = some (js "/y") ∧ x.1.get (js "/y") = some (js "/x") ∧
    x.1.knownHard (js "/x") = false ∧ x.1.knownHard (js "/y") = false ∧
    (x.1.p = js "/x" ∨ x.1.p = js "/y") ∧
    (x.1.pos = 0 ∧ x.1.current = [] ∨ x.1.pos = 1 ∧ x.1.current = js "/")

instance (x : Vars × JSString) : Decidable (Spins x) :=
  inferInstanceAs (Decidable (_ ∧ _))

theorem skip_round {F : Files} {cwd original : JSString} {v : Vars} {resolvedLink : JSString}
    (hpos : v.pos < v.p.length) (hskips : v.next.Skips) :
    realpathSyncRound F cwd original (v, resolvedLink) = .inl (v.next, resolvedLink) := by
  unfold realpathSyncRound
  dsimp only
  rw [if_pos hpos, if_pos hskips]

theorem known_round {F : Files} {cwd original : JSString} {v : Vars}
    {resolvedLink r : JSString} (hpos : v.pos < v.p.length) (hskips : ¬ v.next.Skips)
    (hget : v.next.get v.next.base = some r) :
    realpathSyncRound F cwd original (v, resolvedLink) = .inl (v.next.restart cwd r, r) := by
  unfold realpathSyncRound
  dsimp only
  rw [if_pos hpos, if_neg hskips, hget]

theorem spins_round (x : Vars × JSString) (h : Spins x) :
    ∃ x', realpathSyncRound maze.files (js "/") (js "/x") x = .inl x' ∧ Spins x' := by
  obtain ⟨⟨p, seenLinks, knownHard, pos, current, base, previous, cache⟩, resolvedLink⟩ := x
  obtain ⟨hx, hy, hx', hy', hp, hpos⟩ := h
  dsimp only at hx' hy' hp hpos
  have hlength : (js "/x").length = 2 ∧ (js "/y").length = 2 := by decide
  rcases hpos with ⟨rfl, rfl⟩ | ⟨rfl, rfl⟩
  · rcases hp with rfl | rfl
    · exact ⟨_, skip_round (Nat.lt_of_lt_of_eq Nat.two_pos hlength.1.symm) (.inl rfl), hx, hy, hx',
        hy', .inl rfl, .inr ⟨rfl, rfl⟩⟩
    · exact ⟨_, skip_round (Nat.lt_of_lt_of_eq Nat.two_pos hlength.2.symm) (.inl rfl), hx, hy, hx',
        hy', .inr rfl, .inr ⟨rfl, rfl⟩⟩
  · rcases hp with rfl | rfl
    · have hskips : ¬ (js "/x" = [] ∨ knownHard (js "/x") = true ∨
          some (js "/y") = some (js "/x")) := by
        rw [hx']
        decide
      refine ⟨_, known_round (r := js "/y") (Nat.lt_of_lt_of_eq Nat.one_lt_two hlength.1.symm)
        (fun h => hskips (h.imp id (Or.imp id fun hget => hx.symm.trans hget))) hx, hx, hy, hx',
        hy', .inr ?_, .inl ⟨rfl, rfl⟩⟩
      exact (by decide +kernel : resolve (js "/") [js "/y", []] = js "/y")
    · have hskips : ¬ (js "/y" = [] ∨ knownHard (js "/y") = true ∨
          some (js "/x") = some (js "/y")) := by
        rw [hy']
        decide
      refine ⟨_, known_round (r := js "/x") (Nat.lt_of_lt_of_eq Nat.one_lt_two hlength.2.symm)
        (fun h => hskips (h.imp id (Or.imp id fun hget => hy.symm.trans hget))) hy, hx, hy, hx',
        hy', .inl ?_, .inl ⟨rfl, rfl⟩⟩
      exact (by decide +kernel : resolve (js "/") [js "/x", []] = js "/x")

/-- `realpathSync` goes from one link to the other for ever. -/
theorem realpathSync_maze (fuel : ℕ) :
    realpathSync (system maze) fuel (js "/x") ⟨fun _ => none, fun _ _ => none⟩ = none := by
  have hround : ∀ x, Spins x → ∃ x',
      realpathSyncRound maze.files (js "/") ((system maze).resolve [js "/x"]) x = .inl x' ∧
        Spins x' := by
    have hresolve : (system maze).resolve [js "/x"] = js "/x" := by decide +kernel
    rw [hresolve]
    exact spins_round
  have hspins : ((Sum.elim (realpathSyncRound maze.files (js "/")
      ((system maze).resolve [js "/x"])) .inr)^[4] ((begin (js "/") (js "/x")
        (some fun _ => none)).map (·, []) id)).elim (fun x => decide (Spins x)) (fun _ => false) =
          true := by decide +kernel
  cases hafter : (Sum.elim (realpathSyncRound maze.files (js "/")
      ((system maze).resolve [js "/x"])) .inr)^[4] ((begin (js "/") (js "/x")
        (some fun _ => none)).map (·, []) id) with
  | inr r =>
    rw [hafter] at hspins
    exact absurd hspins nofun
  | inl x =>
    rw [hafter] at hspins
    exact congrArg _ (loop_never hround hafter (of_decide_eq_true hspins) fuel)

/-- `require` of such a link never returns. -/
theorem not_required : ¬ ∀ (D : System) (exts paths : List JSString) (s : Loader Unit),
    Reach (step D) (fun _ _ => True) (.new exts paths) s → ∀ request parent,
      (∀ i ∈ parent, i < s.count) →
      ∃ fuel s', step D s (.require fuel request parent) = some s' := by
  intro h
  obtain ⟨fuel, s', hstep⟩ := h (system maze) [] [] (.new [] []) .refl (js "/x") none (by simp)
  have hasked : asked (system maze) [] ⟨fun _ => none, fun _ _ => none⟩ (js "/x") [] =
      some (js "/x") := by decide +kernel
  have hnever : (Loader.new [] [] : Loader Unit).resolveFilename (system maze) fuel (js "/x") none
      ⟨fun _ => none, fun _ _ => none⟩ = none := by
    have hfind := findPath_of_asked fuel hasked
    rw [realpathSync_maze] at hfind
    exact (Look.orThrow_apply _ _ _).trans (congrArg _ hfind)
  cases stepped_of_step hstep with
  | require hrequires =>
    obtain ⟨r, hfound⟩ := hrequires.found
    cases hnever.symm.trans hfound

end NodeJS.Modules
