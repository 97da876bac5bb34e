import NodeJS.Buffer.Text
import Mathlib.Tactic.Common

/-! `path.resolve`, and paths as lists of names. -/
namespace NodeJS.Path

abbrev slash : UInt16 := 0x2F

/-- What `normalizeArray` does with one part, going from the last to the first. -/
def normalizeStep (last : JSString) : List JSString × ℕ → List JSString × ℕ
  | (parts, up) =>
    if last = js "." then (parts, up)
    else if last = js ".." then (parts, up + 1)
    else if up ≠ 0 then (parts, up - 1)
    else (last :: parts, up)

def normalizeArray (parts : List JSString) (allowAboveRoot : Bool) : List JSString :=
  let (parts, up) := parts.foldr normalizeStep ([], 0)
  if allowAboveRoot then List.replicate up (js "..") ++ parts else parts

/-- `path.split('/').filter(...)` -/
def pieces (path : JSString) : List JSString := (path.splitOn slash).filter (· ≠ [])

def join (parts : List JSString) : JSString := [slash].intercalate parts

/-- The loop over the arguments, from the last one to the working directory. -/
def resolveLoop : JSString → List JSString → JSString × Bool
  | resolvedPath, [] => (resolvedPath, false)
  | resolvedPath, path :: paths =>
    if path = [] then resolveLoop resolvedPath paths
    else if path.head? = some slash then (path ++ slash :: resolvedPath, true)
    else resolveLoop (path ++ slash :: resolvedPath) paths

def resolve (cwd : JSString) (paths : List JSString) : JSString :=
  let (resolvedPath, resolvedAbsolute) := resolveLoop [] (paths.reverse ++ [cwd])
  let normalized := join (normalizeArray (pieces resolvedPath) !resolvedAbsolute)
  let path := (if resolvedAbsolute then [slash] else []) ++ normalized
  if path = [] then js "." else path

/-- What `process.cwd()` returns. -/
structure Cwd where
  path : JSString
  absolute : path.head? = some slash

/-! ### Names -/

/-- A part of a path that is normal. -/
structure IsName (c : JSString) : Prop where
  ne_nil : c ≠ []
  no_slash : slash ∉ c
  ne_dot : c ≠ js "."
  ne_dots : c ≠ js ".."

theorem IsName.part {c : JSString} (h : IsName c) : c ≠ [] ∧ slash ∉ c := ⟨h.ne_nil, h.no_slash⟩

instance (c : JSString) : Decidable (IsName c) :=
  decidable_of_iff (c ≠ [] ∧ slash ∉ c ∧ c ≠ js "." ∧ c ≠ js "..")
    ⟨fun ⟨h₁, h₂, h₃, h₄⟩ => ⟨h₁, h₂, h₃, h₄⟩, fun ⟨h₁, h₂, h₃, h₄⟩ => ⟨h₁, h₂, h₃, h₄⟩⟩

/-- The path of the names from the root on. -/
def absolute (cs : List JSString) : JSString := slash :: join cs

@[simp] theorem pieces_nil : pieces [] = [] := rfl

theorem pieces_append (a b : JSString) : pieces (a ++ slash :: b) = pieces a ++ pieces b := by
  unfold pieces
  rw [List.splitOn_append_cons_self, List.filter_append]

@[simp] theorem pieces_cons (s : JSString) : pieces (slash :: s) = pieces s := pieces_append [] s

theorem pieces_of_no_slash {c : JSString} (h : slash ∉ c) :
    pieces c = if c = [] then [] else [c] := by
  unfold pieces
  rw [List.splitOn_eq_singleton h]
  by_cases hc : c = []
  · simp [hc]
  · simp [hc]

theorem join_cons (c : JSString) (cs : List JSString) :
    join (c :: cs) = if cs = [] then c else c ++ slash :: join cs := by
  unfold join
  split_ifs with h
  · rw [h, List.intercalate_singleton]
  · rw [List.intercalate_cons_of_ne_nil h, List.append_assoc]
    rfl

theorem pieces_join {cs : List JSString} (h : ∀ c ∈ cs, slash ∉ c) :
    pieces (join cs) = cs.filter (· ≠ []) := by
  induction cs with
  | nil => rfl
  | cons c cs ih =>
    have hc : pieces c = [c].filter (· ≠ []) := by
      rw [pieces_of_no_slash (h c List.mem_cons_self)]
      by_cases hc : c = [] <;> simp [hc]
    rw [join_cons]
    split_ifs with hcs
    · rw [hcs, hc]
    · rw [pieces_append, hc, ih (List.forall_mem_of_forall_mem_cons h), ← List.filter_append]
      rfl

theorem slash_not_mem_splitOn (s : JSString) : ∀ c ∈ s.splitOn slash, slash ∉ c := by
  induction s with
  | nil => simp
  | cons x s ih =>
    rw [List.splitOn_cons_eq_if_modifyHead]
    split_ifs with hx
    · intro c hc
      rcases List.mem_cons.mp hc with rfl | hc
      · exact List.not_mem_nil
      · exact ih c hc
    · obtain ⟨d, ds, hs⟩ := List.exists_cons_of_ne_nil (List.splitOn_ne_nil slash s)
      rw [hs] at ih ⊢
      intro c hc
      rcases List.mem_cons.mp hc with rfl | hc
      · have hd := ih d List.mem_cons_self
        have hne : slash ≠ x := by
          rintro rfl
          exact hx (beq_self_eq_true _)
        exact fun hmem => (List.mem_cons.mp hmem).elim hne hd
      · exact ih c (List.mem_cons_of_mem _ hc)

theorem pieces_no_slash (s : JSString) : ∀ c ∈ pieces s, c ≠ [] ∧ slash ∉ c := by
  intro c hc
  obtain ⟨hsplit, hne⟩ := List.mem_filter.mp hc
  exact ⟨by simpa using hne, slash_not_mem_splitOn s c hsplit⟩

theorem pieces_absolute {cs : List JSString} (h : ∀ c ∈ cs, IsName c) :
    pieces (absolute cs) = cs := by
  unfold absolute
  rw [pieces_cons, pieces_join fun c hc => (h c hc).no_slash, List.filter_eq_self]
  exact fun c hc => by simpa using (h c hc).ne_nil

/-! ### Normal paths -/

/-- The parts that are left, and how many times the path goes above them. -/
def normal (parts : List JSString) : List JSString × ℕ := parts.foldr normalizeStep ([], 0)

theorem normal_cons (c : JSString) (parts : List JSString) :
    normal (c :: parts) = normalizeStep c (normal parts) := rfl

theorem isName_of_mem_normal {parts : List JSString} (h : ∀ c ∈ parts, c ≠ [] ∧ slash ∉ c) :
    ∀ c ∈ (normal parts).1, IsName c := by
  induction parts with
  | nil => exact fun c hc => absurd hc List.not_mem_nil
  | cons last parts ih =>
    have ih := ih fun c hc => h c (List.mem_cons_of_mem _ hc)
    have hlast := h last List.mem_cons_self
    rw [normal_cons]
    unfold normalizeStep
    dsimp only
    split_ifs with hdot hdots hup
    · exact ih
    · exact ih
    · exact ih
    · intro c hc
      rcases List.mem_cons.mp hc with rfl | hc
      · exact ⟨hlast.1, hlast.2, hdot, hdots⟩
      · exact ih c hc

theorem normalizeStep_isName {c : JSString} (h : IsName c) (cs : List JSString) :
    normalizeStep c (cs, 0) = (c :: cs, 0) := by
  simp [normalizeStep, h.ne_dot, h.ne_dots]

theorem normal_append {cs : List JSString} (h : ∀ c ∈ cs, IsName c) (parts : List JSString)
    (hup : (normal parts).2 = 0) : normal (cs ++ parts) = (cs ++ (normal parts).1, 0) := by
  induction cs with
  | nil => exact Prod.ext rfl hup
  | cons c cs ih =>
    have ih := ih fun c' hc' => h c' (List.mem_cons_of_mem _ hc')
    rw [List.cons_append, normal_cons, ih, normalizeStep_isName (h c List.mem_cons_self)]
    rfl

theorem normal_isName {cs : List JSString} (h : ∀ c ∈ cs, IsName c) : normal cs = (cs, 0) := by
  have hnil := normal_append h [] rfl
  rw [List.append_nil] at hnil
  exact hnil.trans (by rw [normal, List.foldr_nil, List.append_nil])

def against (base : List JSString) (path : JSString) : List JSString :=
  if path.head? = some slash then pieces path else base ++ pieces path

/-- The names of `path.resolve(base, path)`. -/
def resolved (base : List JSString) (path : JSString) : List JSString := (normal (against base path)).1

theorem resolveLoop_pieces {base : JSString} (hbase : base.head? = some slash) (path : JSString)
    (rest : List JSString) :
    (resolveLoop [] (path :: base :: rest)).2 = true ∧
      pieces (resolveLoop [] (path :: base :: rest)).1 = against (pieces base) path := by
  have hne : base ≠ [] := by
    rintro rfl
    cases hbase
  have hstop : ∀ acc, resolveLoop acc (base :: rest) = (base ++ slash :: acc, true) := by
    intro acc
    rw [resolveLoop, if_neg hne, if_pos hbase]
  unfold against
  by_cases hpath : path = []
  · rw [resolveLoop, if_pos hpath, hstop, hpath]
    exact ⟨rfl, pieces_append _ _⟩
  · rw [resolveLoop, if_neg hpath]
    split_ifs with hslash
    · exact ⟨rfl, by rw [pieces_append, pieces_nil, List.append_nil]⟩
    · rw [hstop]
      refine ⟨rfl, ?_⟩
      rw [pieces_append, pieces_append, pieces_nil, List.append_nil]

theorem resolve_of_loop {cwd : JSString} (paths : List JSString)
    (h : (resolveLoop [] (paths.reverse ++ [cwd])).2 = true) :
    resolve cwd paths =
      absolute (normal (pieces (resolveLoop [] (paths.reverse ++ [cwd])).1)).1 := by
  unfold resolve
  generalize resolveLoop [] (paths.reverse ++ [cwd]) = full at h ⊢
  obtain ⟨resolvedPath, resolvedAbsolute⟩ := full
  obtain rfl : resolvedAbsolute = true := h
  simp [absolute, normalizeArray, normal]

/-- `path.resolve(path)` -/
theorem resolve_one (cwd : Cwd) (path : JSString) :
    resolve cwd.path [path] = absolute (resolved (pieces cwd.path) path) := by
  obtain ⟨habsolute, hpieces⟩ := resolveLoop_pieces cwd.absolute path []
  rw [resolve_of_loop [path] habsolute]
  exact congrArg (fun parts => absolute (normal parts).1) hpieces

/-- `path.resolve(base, path)` with an absolute base. -/
theorem resolve_two (cwd : JSString) {base : JSString} (hbase : base.head? = some slash)
    (path : JSString) : resolve cwd [base, path] = absolute (resolved (pieces base) path) := by
  obtain ⟨habsolute, hpieces⟩ := resolveLoop_pieces hbase path [cwd]
  rw [resolve_of_loop [base, path] habsolute]
  exact congrArg (fun parts => absolute (normal parts).1) hpieces

example : resolve (js "/home") [js "a//b/", js "../c/."] = js "/home/a/c" := by decide +kernel

theorem isName_of_mem_against {base : List JSString} (hbase : ∀ c ∈ base, c ≠ [] ∧ slash ∉ c)
    (path : JSString) : ∀ c ∈ against base path, c ≠ [] ∧ slash ∉ c := by
  unfold against
  split_ifs
  · exact pieces_no_slash path
  · exact List.forall_mem_append.mpr ⟨hbase, pieces_no_slash path⟩

theorem isName_resolved {base : List JSString} (hbase : ∀ c ∈ base, c ≠ [] ∧ slash ∉ c)
    (path : JSString) : ∀ c ∈ resolved base path, IsName c :=
  isName_of_mem_normal (isName_of_mem_against hbase path)

theorem join_eq_nil_iff {parts : List JSString} (h : ∀ c ∈ parts, c ≠ [] ∧ slash ∉ c) :
    join parts = [] ↔ parts = [] := by
  cases parts with
  | nil => simp [join]
  | cons c parts =>
    have hc := (h c List.mem_cons_self).1
    rw [join_cons]
    split_ifs <;> simp [hc]

theorem head_join {c : JSString} (h : c ≠ [] ∧ slash ∉ c) (cs : List JSString) :
    (join (c :: cs)).head? ≠ some slash := by
  obtain ⟨x, c, rfl⟩ := List.exists_cons_of_ne_nil h.1
  intro hhead
  rw [join_cons] at hhead
  have hx : x = slash := by
    split_ifs at hhead
    · exact Option.some.inj hhead
    · exact Option.some.inj hhead
  exact h.2 (hx ▸ List.mem_cons_self)

/-- What is left of a normal path, after another one. -/
theorem resolve_rest (cwd : JSString) {cs todo : List JSString} (hcs : ∀ c ∈ cs, IsName c)
    (htodo : ∀ c ∈ todo, IsName c) :
    resolve cwd [absolute cs, join todo] = absolute (cs ++ todo) := by
  have hhead : (join todo).head? ≠ some slash := by
    cases todo with
    | nil => exact nofun
    | cons c todo => exact head_join (htodo c List.mem_cons_self).part todo
  have hpieces : pieces (join todo) = todo := by
    have habsolute := pieces_absolute htodo
    rwa [absolute, pieces_cons] at habsolute
  have hboth : ∀ c ∈ cs ++ todo, IsName c := List.forall_mem_append.mpr ⟨hcs, htodo⟩
  rw [resolve_two cwd rfl, resolved, against, if_neg hhead, pieces_absolute hcs, hpieces,
    normal_isName hboth]

end NodeJS.Path
