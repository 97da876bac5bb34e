import Mathlib.Logic.Function.Iterate
import NodeJS.Fs.Agree
import NodeJS.Fs.Walk

/-! `realpath` against the resolution of paths by POSIX. -/
namespace NodeJS.Fs
open NodeJS.Path Lib Relation

/-- Along the parts, taken from `d`, no `..` takes a link away when the path is normalized. -/
def Tame (T : Tree) : Loc → List JSString → Prop
  | _, [] => True
  | d, c :: cs => ((normal cs).2 ≠ 0 → IsName c → T.readlink (d ++ [c]) = none) ∧
      ∀ d', T.walk T.maxSymlinks d [c] = some d' → Tame T d' cs

instance decidableTame (T : Tree) : (d : Loc) → (cs : List JSString) → Decidable (Tame T d cs)
  | _, [] => .isTrue trivial
  | d, c :: cs =>
    have : Decidable (∀ d', T.walk T.maxSymlinks d [c] = some d' → Tame T d' cs) :=
      match T.walk T.maxSymlinks d [c] with
      | none => .isTrue nofun
      | some d' =>
        have := decidableTame T d' cs
        decidable_of_iff (Tame T d' cs) ⟨fun h _ heq => Option.some.inj heq ▸ h, fun h => h d' rfl⟩
    inferInstanceAs (Decidable (_ ∧ _))

section
variable {T : Tree} {d e : Loc} {c : JSString} {cs todo : List JSString} {k : ℕ}

/-- A normal path leads to the same file, if no link is taken away. -/
theorem Walks.normal (h : Walks T d cs e k) (hk : k ≤ T.maxSymlinks)
    (hcs : ∀ c ∈ cs, c ≠ [] ∧ slash ∉ c) (htame : Tame T d cs) :
    ∃ k' ≤ k, Walks T (List.dropLast^[(normal cs).2] d) (Path.normal cs).1 e k' := by
  induction cs generalizing d k with
  | nil => exact ⟨k, Nat.le_refl k, h⟩
  | cons c cs ih =>
    have hc := hcs c List.mem_cons_self
    rw [← List.singleton_append] at h
    obtain ⟨d', k₁, k₂, rfl, h₁, h₂⟩ := h.split
    have htame' := htame.2 d' (h₁.walk (Nat.le_trans (Nat.le_add_right k₁ k₂) hk))
    obtain ⟨k', hk', hwalks⟩ := ih h₂ (Nat.le_trans (Nat.le_add_left k₂ k₁) hk)
      (List.forall_mem_of_forall_mem_cons hcs) htame'
    have hle : k' ≤ k₁ + k₂ := Nat.le_trans hk' (Nat.le_add_left k₂ k₁)
    rw [normal_cons]
    unfold normalizeStep
    dsimp only
    split_ifs with hdot hdots hup
    · subst hdot
      obtain ⟨rfl, -⟩ := h₁.over_dot.nil_cases
      exact ⟨k', hle, hwalks⟩
    · subst hdots
      obtain ⟨rfl, -⟩ := h₁.over_dots.nil_cases
      exact ⟨k', hle, hwalks⟩
    · -- `..` takes the name away
      have hname : IsName c := ⟨hc.1, hc.2, hdot, hdots⟩
      obtain ⟨rfl, -⟩ := (h₁.over_name hname (htame.1 hup hname)).nil_cases
      obtain ⟨u, hu⟩ := Nat.exists_eq_succ_of_ne_zero hup
      rw [hu, Function.iterate_succ_apply, List.dropLast_concat] at hwalks
      rw [hu]
      exact ⟨k', hle, hwalks⟩
    · rw [not_not.mp hup] at hwalks ⊢
      exact ⟨k₁ + k', Nat.add_le_add_left hk' k₁, h₁.append hwalks⟩

/-! ### One link -/

/-- The dot for a slash at the end. -/
theorem Walks.drop_dot {path : JSString} (h : Walks T d (components path ++ cs) e k) :
    Walks T d (pieces path ++ cs) e k := by
  unfold components at h
  split_ifs at h
  · rw [List.append_assoc] at h
    obtain ⟨d₁, k₁, k₂, rfl, h₁, h₂⟩ := h.split
    obtain ⟨d₂, k₃, k₄, rfl, h₃, h₄⟩ := h₂.split
    obtain ⟨rfl, rfl⟩ := h₃.over_dot.nil_cases
    rw [Nat.zero_add]
    exact h₁.append h₄
  · rwa [List.append_nil] at h

/-- A path that is taken from `d`, from the root on. -/
theorem Hard.against (hd : Hard T d) {path : JSString}
    (h : Walks T (if path.head? = some slash then [] else d) (components path ++ cs) e k) :
    Walks T [] (against d path ++ cs) e k := by
  unfold Path.against
  split_ifs at h ⊢
  · exact h.drop_dot
  · rw [List.append_assoc, ← Nat.zero_add k]
    exact hd.walks.append h.drop_dot

theorem components_absolute (hcs : ∀ c ∈ cs, IsName c) (hne : cs ≠ []) :
    components (absolute cs) = cs := by
  have hlast : (absolute cs).getLast? ≠ some slash := by
    rcases List.eq_nil_or_concat cs with rfl | ⟨done, c, rfl⟩
    · exact absurd rfl hne
    · rw [List.concat_eq_append] at hcs ⊢
      have hc := hcs c (by simp)
      rw [absolute_snoc, List.getLast?_append_of_ne_nil _ hc.ne_nil]
      exact fun hx => hc.no_slash (List.mem_of_getLast? hx)
  unfold components
  rw [if_neg hlast, List.append_nil, pieces_absolute hcs]

/-- On the way from a path over the links that are replaced, every name is matched as a whole, and
no link is taken away where a target is normalized. -/
structure Lexical (T : Tree) (cs : List JSString) : Prop where
  matched : ∀ cs', ReflTransGen (Expands T.files) cs cs' → ∀ c ∈ cs', c.any isLineTerminator = false
  tame : ∀ cs', ReflTransGen (Expands T.files) cs cs' →
    ∀ id base resolvedLink rest target, meet T.files [] cs' = .link id base resolvedLink rest →
      T.readlink id = some target → Tame T [] (against id.dropLast target)

theorem Lexical.expands {cs' : List JSString} (h : Lexical T cs)
    (hexpands : Expands T.files cs cs') : Lexical T cs' :=
  ⟨fun cs'' hreached => h.matched cs'' (hreached.head hexpands),
    fun cs'' hreached => h.tame cs'' (hreached.head hexpands)⟩

theorem Lexical.of_hard (hmeet : meet T.files [] cs = .hard)
    (hmatched : ∀ c ∈ cs, c.any isLineTerminator = false) : Lexical T cs := by
  have hlast : ∀ cs', ReflTransGen (Expands T.files) cs cs' → cs' = cs := by
    intro cs' hreached
    obtain rfl | ⟨_, hfirst, -⟩ := ReflTransGen.cases_head hreached
    · rfl
    · exact absurd hfirst (not_expands_of_hard hmeet)
  refine ⟨fun cs' hreached => ?_, fun cs' hreached _ _ _ _ _ hlink => ?_⟩
  · rwa [hlast cs' hreached]
  · rw [hlast cs' hreached] at hlink
    cases hmeet.symm.trans hlink

end

structure WorkDir (T : Tree) where
  loc : Loc
  isDir : T.IsDir loc
  names : ∀ c ∈ loc, IsName c

def WorkDir.cwd {T : Tree} (d : WorkDir T) : Cwd := ⟨absolute d.loc, rfl⟩

/-- A path is absolute, has no link among its prefixes and names `e`. -/
structure Names (T : Tree) (e : Loc) (r : JSString) : Prop where
  isAbsolute : r.head? = some slash
  prefixes : ∀ d, d <+: pieces r → T.readlink d = none
  find : ∀ d, T.find d r = some e

section
variable {T : Tree} {d e : Loc} {p : JSString}

theorem Hard.readlink (h : Hard T d) : T.readlink d = none := by
  rcases List.eq_nil_or_concat d with rfl | ⟨d, c, rfl⟩
  · rfl
  · rw [List.concat_eq_append] at h ⊢
    obtain ⟨-, -, node, hget, hlink⟩ := h.entry
    exact Tree.readlink_eq_none hget hlink

theorem Hard.of_prefix (h : Hard T e) (hd : d <+: e) : Hard T d := by
  induction e using List.reverseRecOn with
  | nil =>
    rw [List.prefix_nil.mp hd]
    exact h
  | append_singleton e c ih =>
    rcases List.prefix_concat_iff.mp hd with rfl | hd
    · exact h
    · exact ih h.entry.1 hd

theorem Hard.find (h : Hard T e) (d : Loc) : T.find d (absolute e) = some e := by
  have hne : absolute e ≠ [] := List.cons_ne_nil _ _
  have habsolute : (absolute e).head? = some slash := rfl
  unfold Tree.find
  rw [if_neg hne, if_pos habsolute]
  by_cases he : e = []
  · rw [he]
    exact T.walk_root _
  · rw [components_absolute h.names he]
    exact h.walks.walk (Nat.zero_le _)

theorem Hard.named (h : Hard T e) : Names T e (absolute e) :=
  ⟨rfl, fun _ hd => (h.of_prefix (pieces_absolute h.names ▸ hd)).readlink, h.find⟩

end

end NodeJS.Fs
