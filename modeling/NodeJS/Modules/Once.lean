import NodeJS.Modules.Load

/-! `Module._cache` has the modules that are being loaded or are loaded, one for each file. -/
namespace NodeJS.Modules
open NodeJS.Path NodeJS.Fs Lib

variable {V : Type*} {D : System} {s s' : Loader V} {request : JSString} {parent : Option ℕ}
  {fuel i : ℕ}

inductive Requires (D : System) (s : Loader V) (fuel : ℕ) (request : JSString)
    (parent : Option ℕ) : Loader V → Prop
  | throws {e : Thrown} {caches : Caches}
    (hfile : s.resolveFilename D fuel request (parent.map s.modules) s.caches =
      some (.error e, caches)) :
    Requires D s fuel request parent { s with caches := caches, answer := .threw e }
  | cached {filename : JSString} {caches : Caches} {i : ℕ}
    (hfile : s.resolveFilename D fuel request (parent.map s.modules) s.caches =
      some (.ok filename, caches)) (hcache : s.cache filename = some i) :
    Requires D s fuel request parent
      { s with caches := caches, answer := .returned (s.modules i).exports }
  | native {filename : JSString} {caches : Caches}
    (hfile : s.resolveFilename D fuel request (parent.map s.modules) s.caches =
      some (.ok filename, caches)) (hcache : s.cache filename = none)
    (hnative : D.native filename = true) :
    Requires D s fuel request parent { s with caches := caches, answer := .native }
  | unread {filename : JSString} {caches : Caches}
    (hfile : s.resolveFilename D fuel request (parent.map s.modules) s.caches =
      some (.ok filename, caches)) (hcache : s.cache filename = none)
    (hdir : dirname filename = none) :
    Requires D s fuel request parent { s with caches := caches, answer := .threw .dirname }
  | loads {filename dir : JSString} {caches : Caches}
    (hfile : s.resolveFilename D fuel request (parent.map s.modules) s.caches =
      some (.ok filename, caches)) (hcache : s.cache filename = none)
    (hnative : D.native filename = false) (hdir : dirname filename = some dir) :
    Requires D s fuel request parent { s with
      modules :=
        Function.update s.modules s.count ⟨filename, nodeModulePaths D dir, none, false⟩
      count := s.count + 1
      cache := Function.update s.cache filename (some s.count)
      caches := caches
      stack := s.count :: s.stack }

theorem requires_of_require (h : s.require D fuel request parent = some s') :
    Requires D s fuel request parent s' := by
  unfold Loader.require at h
  cases hfile : s.resolveFilename D fuel request (parent.map s.modules) s.caches with
  | none =>
    rw [hfile] at h
    exact absurd h nofun
  | some x =>
    obtain ⟨r, caches⟩ := x
    rw [hfile] at h
    cases r with
    | error e =>
      obtain rfl := Option.some.inj h
      exact .throws hfile
    | ok filename =>
      dsimp only at h
      cases hcache : s.cache filename with
      | some i =>
        rw [hcache] at h
        obtain rfl := Option.some.inj h
        exact .cached hfile hcache
      | none =>
        rw [hcache] at h
        dsimp only at h
        split_ifs at h with hnative
        · obtain rfl := Option.some.inj h
          exact .native hfile hcache hnative
        · obtain rfl := Option.some.inj h
          unfold Loader.load
          cases hdir : dirname filename with
          | none => exact .unread hfile hcache hdir
          | some dir => exact .loads hfile hcache (Bool.eq_false_iff.mpr hnative) hdir

/-- The search for the file has ended, with these caches. -/
theorem Requires.found (h : Requires D s fuel request parent s') : ∃ r,
    s.resolveFilename D fuel request (parent.map s.modules) s.caches = some (r, s'.caches) := by
  cases h with
  | throws hfile => exact ⟨_, hfile⟩
  | cached hfile => exact ⟨_, hfile⟩
  | native hfile => exact ⟨_, hfile⟩
  | unread hfile => exact ⟨_, hfile⟩
  | loads hfile => exact ⟨_, hfile⟩

inductive Stepped (D : System) (s : Loader V) : Action V → Loader V → Prop
  | require {fuel : ℕ} {request : JSString} {parent : Option ℕ} {s' : Loader V}
    (h : Requires D s fuel request parent s') : Stepped D s (.require fuel request parent) s'
  | exports (i : ℕ) (v : V) : Stepped D s (.exports i v) { s with
      modules := Function.update s.modules i { s.modules i with exports := some v } }
  | modulePaths (i : ℕ) (paths : List JSString) : Stepped D s (.modulePaths i paths) { s with
      modules := Function.update s.modules i { s.modules i with paths := paths } }
  | lookup (exts paths : List JSString) :
    Stepped D s (.lookup exts paths) { s with exts := exts, paths := paths }
  | work : Stepped D s .work s
  | ret {i : ℕ} {rest : List ℕ} (hs : s.stack = i :: rest) : Stepped D s .ret { s with
      modules := Function.update s.modules i { s.modules i with loaded := true }
      stack := rest
      answer := .returned (s.modules i).exports }
  | throws {i : ℕ} {rest : List ℕ} (hs : s.stack = i :: rest) : Stepped D s .throws { s with
      cache := Function.update s.cache (s.modules i).filename none
      stack := rest
      answer := .threw .body }

theorem stepped_of_step {a : Action V} (h : step D s a = some s') : Stepped D s a s' := by
  cases a with
  | require fuel request parent =>
    exact .require (requires_of_require (Option.ite_none_right_eq_some.mp h).2)
  | exports i v =>
    obtain ⟨-, hs'⟩ := Option.ite_none_right_eq_some.mp h
    obtain rfl := Option.some.inj hs'
    exact .exports i v
  | modulePaths i paths =>
    obtain ⟨-, hs'⟩ := Option.ite_none_right_eq_some.mp h
    obtain rfl := Option.some.inj hs'
    exact .modulePaths i paths
  | lookup exts paths =>
    obtain rfl := Option.some.inj h
    exact .lookup exts paths
  | work =>
    obtain rfl := Option.some.inj h
    exact .work
  | ret =>
    have hret : s.ret = some s' := h
    unfold Loader.ret at hret
    split at hret
    next => exact absurd hret nofun
    next i rest hs =>
      obtain rfl := Option.some.inj hret
      exact .ret hs
  | throws =>
    have hthrows : s.throws = some s' := h
    unfold Loader.throws at hthrows
    split at hthrows
    next => exact absurd hthrows nofun
    next i rest hs =>
      obtain rfl := Option.some.inj hthrows
      exact .throws hs

/-- The body of the module is running, or it has returned. -/
def Live (s : Loader V) (i : ℕ) : Prop := i ∈ s.stack ∨ (s.modules i).loaded = true

structure Once (s : Loader V) : Prop where
  made : ∀ i ∈ s.stack, i < s.count
  nodup : s.stack.Nodup
  running : ∀ i ∈ s.stack, (s.modules i).loaded = false
  cache : ∀ filename i, s.cache filename = some i ↔
    i < s.count ∧ (s.modules i).filename = filename ∧ Live s i
  earlier : ∀ i j, i < j → j < s.count → (s.modules i).filename = (s.modules j).filename →
    ¬ Live s i

theorem once_new (exts paths : List JSString) : Once (.new exts paths : Loader V) where
  made := fun _ hmem => absurd hmem List.not_mem_nil
  nodup := List.nodup_nil
  running := fun _ hmem => absurd hmem List.not_mem_nil
  cache := fun _ _ => ⟨nofun, fun h => absurd h.1 (Nat.not_lt_zero _)⟩
  earlier := fun _ _ _ hj => absurd hj (Nat.not_lt_zero _)

/-- What matters of the modules stays as it is. -/
theorem Once.congr (h : Once s) (hcount : s'.count = s.count) (hcache : s'.cache = s.cache)
    (hstack : s'.stack = s.stack)
    (hmodules : ∀ i, (s'.modules i).filename = (s.modules i).filename ∧
      (s'.modules i).loaded = (s.modules i).loaded) : Once s' := by
  have hlive : ∀ i, Live s' i ↔ Live s i := by
    intro i
    unfold Live
    rw [hstack, (hmodules i).2]
  refine ⟨?_, ?_, ?_, ?_, ?_⟩
  · rw [hstack, hcount]
    exact h.made
  · rw [hstack]
    exact h.nodup
  · intro i hi
    rw [hstack] at hi
    rw [(hmodules i).2]
    exact h.running i hi
  · intro filename i
    rw [hcache, hcount, (hmodules i).1, hlive]
    exact h.cache filename i
  · intro i j hij hj hsame
    rw [hcount] at hj
    rw [(hmodules i).1, (hmodules j).1] at hsame
    rw [hlive]
    exact h.earlier i j hij hj hsame

/-- A module is made for a file that is not in the cache. -/
theorem Once.load (h : Once s) {filename : JSString} (hfree : s.cache filename = none)
    {m : Mod V} (hfilename : m.filename = filename) (hloaded : m.loaded = false)
    (hmodules : s'.modules = Function.update s.modules s.count m) (hcount : s'.count = s.count + 1)
    (hcache : s'.cache = Function.update s.cache filename (some s.count))
    (hstack : s'.stack = s.count :: s.stack) : Once s' := by
  have hold : ∀ i < s.count, s'.modules i = s.modules i ∧ (Live s' i ↔ Live s i) := by
    intro i hi
    have hne : i ≠ s.count := Nat.ne_of_lt hi
    have hsame : s'.modules i = s.modules i := by
      rw [hmodules, Function.update_of_ne hne]
    refine ⟨hsame, ?_⟩
    unfold Live
    rw [hstack, hsame, List.mem_cons]
    exact or_congr_left (or_iff_right hne)
  have hnew : s'.modules s.count = m := by
    rw [hmodules, Function.update_self]
  have hdead : ∀ i < s.count, (s.modules i).filename = filename → ¬ Live s i :=
    fun i hi hsame hlive => absurd
      (hfree.symm.trans ((h.cache filename i).mpr ⟨hi, hsame, hlive⟩)) nofun
  refine ⟨?_, ?_, ?_, ?_, ?_⟩
  · rw [hstack, hcount]
    exact List.forall_mem_cons.mpr
      ⟨Nat.lt_succ_self _, fun i hi => Nat.lt_succ_of_lt (h.made i hi)⟩
  · rw [hstack]
    exact List.nodup_cons.mpr ⟨fun hmem => Nat.lt_irrefl _ (h.made _ hmem), h.nodup⟩
  · rw [hstack]
    refine List.forall_mem_cons.mpr ⟨hnew ▸ hloaded, fun i hi => ?_⟩
    rw [(hold i (h.made i hi)).1]
    exact h.running i hi
  · intro filename' i
    rw [hcache, hcount]
    by_cases hi : i = s.count
    · subst hi
      have hlive : Live s' s.count := .inl (hstack ▸ List.mem_cons_self)
      rw [hnew, hfilename]
      by_cases heq : filename' = filename
      · rw [heq, Function.update_self]
        exact ⟨fun _ => ⟨Nat.lt_succ_self _, rfl, hlive⟩, fun _ => rfl⟩
      · rw [Function.update_of_ne heq]
        exact ⟨fun hmem => absurd ((h.cache _ _).mp hmem).1 (Nat.lt_irrefl _),
          fun hright => absurd hright.2.1.symm heq⟩
    · have hlt : i < s.count + 1 ↔ i < s.count := by omega
      rw [hlt]
      by_cases heq : filename' = filename
      · subst heq
        rw [Function.update_self]
        refine ⟨fun hmem => absurd (Option.some.inj hmem).symm hi, fun ⟨hi', hsame, hlive⟩ => ?_⟩
        rw [(hold i hi').1] at hsame
        exact absurd ((hold i hi').2.mp hlive) (hdead i hi' hsame)
      · rw [Function.update_of_ne heq, h.cache filename' i]
        refine and_congr_right fun hi' => ?_
        rw [(hold i hi').1, (hold i hi').2]
  · intro i j hij hj hsame
    have hi : i < s.count := by omega
    rw [(hold i hi).1] at hsame
    rw [(hold i hi).2]
    by_cases heq : j = s.count
    · rw [heq, hnew, hfilename] at hsame
      exact hdead i hi hsame
    · have hj' : j < s.count := by omega
      rw [(hold j hj').1] at hsame
      exact h.earlier i j hij hj' hsame

/-- The modules below the one that was called last. -/
theorem Once.below (h : Once s) {rest : List ℕ} (hs : s.stack = i :: rest) :
    i ∉ rest ∧ rest.Nodup ∧ ∀ j ∈ rest, j < s.count ∧ (s.modules j).loaded = false := by
  have hnodup := h.nodup
  have hmade := h.made
  have hrunning := h.running
  rw [hs] at hnodup hmade hrunning
  obtain ⟨hnot, hnodup⟩ := List.nodup_cons.mp hnodup
  refine ⟨hnot, hnodup, fun j hj => ?_⟩
  have hmem : j ∈ i :: rest := List.mem_cons_of_mem i hj
  exact ⟨hmade j hmem, hrunning j hmem⟩

/-- The body of the module that was called last returns. -/
theorem Once.ret (h : Once s) {rest : List ℕ} (hs : s.stack = i :: rest) {m : Mod V}
    (hfilename : m.filename = (s.modules i).filename) (hloaded : m.loaded = true)
    (hmodules : s'.modules = Function.update s.modules i m) (hcount : s'.count = s.count)
    (hcache : s'.cache = s.cache) (hstack : s'.stack = rest) : Once s' := by
  obtain ⟨hnot, hnodup, hbelow⟩ := h.below hs
  have hold : ∀ j, (s'.modules j).filename = (s.modules j).filename ∧
      (j ≠ i → s'.modules j = s.modules j) := by
    intro j
    rw [hmodules]
    by_cases heq : j = i
    · rw [heq, Function.update_self]
      exact ⟨hfilename, fun hne => absurd rfl hne⟩
    · rw [Function.update_of_ne heq]
      exact ⟨rfl, fun _ => rfl⟩
  have hlive : ∀ j, Live s' j ↔ Live s j := by
    intro j
    unfold Live
    rw [hstack, hs, List.mem_cons]
    by_cases heq : j = i
    · rw [heq, hmodules, Function.update_self]
      exact ⟨fun _ => .inl (.inl rfl), fun _ => .inr hloaded⟩
    · rw [(hold j).2 heq]
      exact or_congr_left (or_iff_right heq).symm
  refine ⟨?_, hstack ▸ hnodup, ?_, ?_, ?_⟩
  · intro j hj
    rw [hcount]
    exact (hbelow j (hstack ▸ hj)).1
  · intro j hj
    rw [hstack] at hj
    have hne : j ≠ i := by
      rintro rfl
      exact hnot hj
    rw [(hold j).2 hne]
    exact (hbelow j hj).2
  · intro filename j
    rw [hcache, hcount, (hold j).1, hlive]
    exact h.cache filename j
  · intro j k hjk hk hsame
    rw [hcount] at hk
    rw [(hold j).1, (hold k).1] at hsame
    rw [hlive]
    exact h.earlier j k hjk hk hsame

/-- The body of the module that was called last throws. -/
theorem Once.throws (h : Once s) {rest : List ℕ} (hs : s.stack = i :: rest)
    (hmodules : s'.modules = s.modules) (hcount : s'.count = s.count)
    (hcache : s'.cache = Function.update s.cache (s.modules i).filename none)
    (hstack : s'.stack = rest) : Once s' := by
  obtain ⟨hnot, hnodup, hbelow⟩ := h.below hs
  have hmem : i ∈ s.stack := hs ▸ List.mem_cons_self
  have hlive : ∀ j, Live s' j ↔ Live s j ∧ j ≠ i := by
    intro j
    unfold Live
    rw [hstack, hmodules, hs, List.mem_cons]
    by_cases heq : j = i
    · subst heq
      rw [h.running j hmem]
      exact ⟨fun hor => hor.elim (fun hrest => absurd hrest hnot) nofun,
        fun hand => absurd rfl hand.2⟩
    · exact ⟨fun hor => ⟨hor.imp .inr id, heq⟩, fun hand => hand.1.imp_left
        fun hor => hor.resolve_left heq⟩
  refine ⟨?_, hstack ▸ hnodup, ?_, ?_, ?_⟩
  · intro j hj
    rw [hcount]
    exact (hbelow j (hstack ▸ hj)).1
  · intro j hj
    rw [hmodules]
    exact (hbelow j (hstack ▸ hj)).2
  · intro filename j
    rw [hcache, hcount, hmodules, hlive]
    by_cases heq : filename = (s.modules i).filename
    · rw [heq, Function.update_self]
      refine ⟨nofun, fun ⟨hj, hsame, hjlive, hne⟩ => ?_⟩
      have hi := (h.cache _ i).mpr ⟨h.made i hmem, rfl, .inl hmem⟩
      have hj := (h.cache _ j).mpr ⟨hj, hsame, hjlive⟩
      exact absurd (Option.some.inj (hj.symm.trans hi)) hne
    · rw [Function.update_of_ne heq, h.cache filename j]
      refine and_congr_right fun _ => ⟨fun ⟨hsame, hjlive⟩ => ⟨hsame, hjlive, ?_⟩,
        fun ⟨hsame, hjlive, _⟩ => ⟨hsame, hjlive⟩⟩
      rintro rfl
      exact heq hsame.symm
  · intro j k hjk hk hsame
    rw [hcount] at hk
    rw [hmodules] at hsame
    rw [hlive]
    exact fun hand => h.earlier j k hjk hk hsame hand.1

theorem Once.require (h : Once s) (hrequires : Requires D s fuel request parent s') : Once s' := by
  cases hrequires with
  | loads hfile hcache => exact h.load hcache rfl rfl rfl rfl rfl rfl
  | _ => exact h.congr rfl rfl rfl fun _ => ⟨rfl, rfl⟩

/-- A field of a module is assigned to. -/
theorem assigned {m : Mod V} (hfilename : m.filename = (s.modules i).filename)
    (hloaded : m.loaded = (s.modules i).loaded) (j : ℕ) :
    (Function.update s.modules i m j).filename = (s.modules j).filename ∧
      (Function.update s.modules i m j).loaded = (s.modules j).loaded := by
  by_cases heq : j = i
  · rw [heq, Function.update_self]
    exact ⟨hfilename, hloaded⟩
  · rw [Function.update_of_ne heq]
    exact ⟨rfl, rfl⟩

theorem once_step {a : Action V} (h : Once s) (hstep : step D s a = some s') : Once s' := by
  cases stepped_of_step hstep with
  | require hrequires => exact h.require hrequires
  | exports i v => exact h.congr rfl rfl rfl (assigned rfl rfl)
  | modulePaths i paths => exact h.congr rfl rfl rfl (assigned rfl rfl)
  | lookup exts paths => exact h.congr rfl rfl rfl fun _ => ⟨rfl, rfl⟩
  | work => exact h
  | ret hs =>
    rename_i i rest
    exact h.ret (m := { s.modules i with loaded := true }) hs rfl rfl rfl rfl rfl rfl
  | throws hs => exact h.throws hs rfl rfl rfl rfl

end NodeJS.Modules
