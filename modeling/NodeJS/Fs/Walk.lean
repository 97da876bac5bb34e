import Mathlib.Data.List.Induction
import NodeJS.Fs.Tree

/-! The walk through a tree as a relation that counts the links it follows. -/
namespace NodeJS.Fs
open NodeJS.Path

/-- The walk from `d` over some parts comes to `e`, and has followed `k` links. -/
inductive Walks (T : Tree) : Loc → List JSString → Loc → ℕ → Prop
  | nil (d : Loc) : Walks T d [] d 0
  | dot {d e : Loc} {cs : List JSString} {k : ℕ} (hd : T.IsDir d) (h : Walks T d cs e k) :
      Walks T d (js "." :: cs) e k
  | dots {d e : Loc} {cs : List JSString} {k : ℕ} (hd : T.IsDir d)
      (h : Walks T d.dropLast cs e k) : Walks T d (js ".." :: cs) e k
  | name {d e : Loc} {c : JSString} {cs : List JSString} {k : ℕ} {n : Node} (hd : T.IsDir d)
      (hdot : c ≠ js ".") (hdots : c ≠ js "..") (hget : T.get (d ++ [c]) = some n)
      (hlink : ∀ target, n ≠ .link target) (h : Walks T (d ++ [c]) cs e k) : Walks T d (c :: cs) e k
  | link {d e : Loc} {c target : JSString} {cs : List JSString} {k : ℕ} (hd : T.IsDir d)
      (hdot : c ≠ js ".") (hdots : c ≠ js "..") (hget : T.get (d ++ [c]) = some (.link target))
      (htarget : target ≠ [])
      (h : Walks T (if target.head? = some slash then [] else d) (components target ++ cs) e k) :
      Walks T d (c :: cs) e (k + 1)

section
variable {T : Tree} {d d' e e' : Loc} {c : JSString} {cs as bs : List JSString} {k k' n : ℕ}

theorem dots_ne_dot : js ".." ≠ js "." := by decide +kernel

/-- The first part of a walk. -/
theorem Walks.cons_cases (h : Walks T d (c :: cs) e k) :
    T.IsDir d ∧ ((c = js "." ∧ Walks T d cs e k) ∨ (c = js ".." ∧ Walks T d.dropLast cs e k) ∨
      (c ≠ js "." ∧ c ≠ js ".." ∧
        ((∃ n, T.get (d ++ [c]) = some n ∧ (∀ target, n ≠ .link target) ∧
            Walks T (d ++ [c]) cs e k) ∨
          ∃ target k', T.get (d ++ [c]) = some (.link target) ∧ target ≠ [] ∧ k = k' + 1 ∧
            Walks T (if target.head? = some slash then [] else d)
              (components target ++ cs) e k'))) := by
  cases h with
  | dot hd h => exact ⟨hd, .inl ⟨rfl, h⟩⟩
  | dots hd h => exact ⟨hd, .inr (.inl ⟨rfl, h⟩)⟩
  | name hd hdot hdots hget hlink h =>
    exact ⟨hd, .inr (.inr ⟨hdot, hdots, .inl ⟨_, hget, hlink, h⟩⟩)⟩
  | link hd hdot hdots hget htarget h =>
    exact ⟨hd, .inr (.inr ⟨hdot, hdots, .inr ⟨_, _, hget, htarget, rfl, h⟩⟩)⟩

theorem Walks.nil_cases (h : Walks T d [] e k) : e = d ∧ k = 0 := by
  cases h
  exact ⟨rfl, rfl⟩

/-- A name, which may be a link. -/
theorem Walks.name_cases (h : Walks T d (c :: cs) e k) (hc : IsName c) :
    T.IsDir d ∧
      ((∃ n, T.get (d ++ [c]) = some n ∧ (∀ target, n ≠ .link target) ∧ Walks T (d ++ [c]) cs e k) ∨
        ∃ target k', T.get (d ++ [c]) = some (.link target) ∧ target ≠ [] ∧ k = k' + 1 ∧
          Walks T (if target.head? = some slash then [] else d) (components target ++ cs) e k') := by
  obtain ⟨hd, ⟨hdot, -⟩ | ⟨hdots, -⟩ | ⟨-, -, hcases⟩⟩ := h.cons_cases
  · exact absurd hdot hc.ne_dot
  · exact absurd hdots hc.ne_dots
  · exact ⟨hd, hcases⟩

theorem Walks.over_dot (h : Walks T d (js "." :: cs) e k) : Walks T d cs e k := by
  obtain ⟨-, ⟨-, h⟩ | ⟨hdots, -⟩ | ⟨hdot, -⟩⟩ := h.cons_cases
  · exact h
  · exact absurd hdots.symm dots_ne_dot
  · exact absurd rfl hdot

theorem Walks.over_dots (h : Walks T d (js ".." :: cs) e k) : Walks T d.dropLast cs e k := by
  obtain ⟨-, ⟨hdot, -⟩ | ⟨-, h⟩ | ⟨-, hdots, -⟩⟩ := h.cons_cases
  · exact absurd hdot dots_ne_dot
  · exact h
  · exact absurd rfl hdots

theorem Walks.over_name (h : Walks T d (c :: cs) e k) (hc : IsName c)
    (hlink : T.readlink (d ++ [c]) = none) : Walks T (d ++ [c]) cs e k := by
  obtain ⟨-, ⟨_, -, -, h⟩ | ⟨target, _, hget, -⟩⟩ := h.name_cases hc
  · exact h
  · rw [Tree.readlink_eq_some.mpr hget] at hlink
    cases hlink

theorem Walks.unique (h : Walks T d cs e k) (h' : Walks T d cs e' k') : e = e' ∧ k = k' := by
  induction h generalizing k' with
  | nil d => exact h'.nil_cases.imp Eq.symm Eq.symm
  | dot _ _ ih => exact ih h'.over_dot
  | dots _ _ ih => exact ih h'.over_dots
  | name hd hdot hdots hget hlink _ ih =>
    obtain ⟨-, ⟨hdot', -⟩ | ⟨hdots', -⟩ | ⟨-, -, ⟨_, -, -, h'⟩ | ⟨_, _, hget', -⟩⟩⟩ := h'.cons_cases
    · exact absurd hdot' hdot
    · exact absurd hdots' hdots
    · exact ih h'
    · exact absurd (Option.some.inj (hget.symm.trans hget')) (hlink _)
  | link hd hdot hdots hget htarget _ ih =>
    obtain ⟨-, ⟨hdot', -⟩ | ⟨hdots', -⟩ |
      ⟨-, -, ⟨_, hget', hlink, -⟩ | ⟨_, _, hget', -, rfl, h'⟩⟩⟩ := h'.cons_cases
    · exact absurd hdot' hdot
    · exact absurd hdots' hdots
    · exact absurd (Option.some.inj (hget'.symm.trans hget)) (hlink _)
    · obtain rfl := Node.link.inj (Option.some.inj (hget.symm.trans hget'))
      obtain ⟨rfl, rfl⟩ := ih h'
      exact ⟨rfl, rfl⟩

theorem Walks.append (h : Walks T d as d' k) (h' : Walks T d' bs e k') :
    Walks T d (as ++ bs) e (k + k') := by
  induction h with
  | nil =>
    rw [Nat.zero_add]
    exact h'
  | dot hd _ ih => exact .dot hd (ih h')
  | dots hd _ ih => exact .dots hd (ih h')
  | name hd hdot hdots hget hlink _ ih => exact .name hd hdot hdots hget hlink (ih h')
  | link hd hdot hdots hget htarget _ ih =>
    have ih := ih h'
    rw [List.append_assoc] at ih
    rw [Nat.add_right_comm]
    exact .link hd hdot hdots hget htarget ih

theorem Walks.split (h : Walks T d (as ++ bs) e k) :
    ∃ d' k₁ k₂, k = k₁ + k₂ ∧ Walks T d as d' k₁ ∧ Walks T d' bs e k₂ := by
  generalize hcs : as ++ bs = cs at h
  induction h generalizing as with
  | nil d =>
    obtain ⟨rfl, rfl⟩ := List.append_eq_nil_iff.mp hcs
    exact ⟨d, 0, 0, rfl, .nil d, .nil d⟩
  | @dot d e cs k hd h ih =>
    rcases List.append_eq_cons_iff.mp hcs with ⟨rfl, rfl⟩ | ⟨as, rfl, rfl⟩
    · exact ⟨d, 0, k, (Nat.zero_add k).symm, .nil d, .dot hd h⟩
    · obtain ⟨d', k₁, k₂, hk, h₁, h₂⟩ := ih rfl
      exact ⟨d', k₁, k₂, hk, .dot hd h₁, h₂⟩
  | @dots d e cs k hd h ih =>
    rcases List.append_eq_cons_iff.mp hcs with ⟨rfl, rfl⟩ | ⟨as, rfl, rfl⟩
    · exact ⟨d, 0, k, (Nat.zero_add k).symm, .nil d, .dots hd h⟩
    · obtain ⟨d', k₁, k₂, hk, h₁, h₂⟩ := ih rfl
      exact ⟨d', k₁, k₂, hk, .dots hd h₁, h₂⟩
  | @name d e c cs k n hd hdot hdots hget hlink h ih =>
    rcases List.append_eq_cons_iff.mp hcs with ⟨rfl, rfl⟩ | ⟨as, rfl, rfl⟩
    · exact ⟨d, 0, k, (Nat.zero_add k).symm, .nil d, .name hd hdot hdots hget hlink h⟩
    · obtain ⟨d', k₁, k₂, hk, h₁, h₂⟩ := ih rfl
      exact ⟨d', k₁, k₂, hk, .name hd hdot hdots hget hlink h₁, h₂⟩
  | @link d e c target cs k hd hdot hdots hget htarget h ih =>
    rcases List.append_eq_cons_iff.mp hcs with ⟨rfl, rfl⟩ | ⟨as, rfl, rfl⟩
    · exact ⟨d, 0, k + 1, (Nat.zero_add _).symm, .nil d, .link hd hdot hdots hget htarget h⟩
    · obtain ⟨d', k₁, k₂, rfl, h₁, h₂⟩ := ih (List.append_assoc _ _ _)
      exact ⟨d', k₁ + 1, k₂, Nat.add_right_comm k₁ k₂ 1, .link hd hdot hdots hget htarget h₁, h₂⟩

theorem walk_cons_dot (hd : T.IsDir d) : T.walk n d (js "." :: cs) = T.walk n d cs := by
  cases n <;> simp [Tree.walk, Tree.walkWith, hd]

theorem walk_cons_dots (hd : T.IsDir d) : T.walk n d (js ".." :: cs) = T.walk n d.dropLast cs := by
  cases n <;> simp [Tree.walk, Tree.walkWith, hd, dots_ne_dot]

theorem walk_cons_name {node : Node} (hd : T.IsDir d) (hdot : c ≠ js ".") (hdots : c ≠ js "..")
    (hget : T.get (d ++ [c]) = some node) (hlink : ∀ target, node ≠ .link target) :
    T.walk n d (c :: cs) = T.walk n (d ++ [c]) cs := by
  cases node with
  | link target => exact absurd rfl (hlink target)
  | file => cases n <;> simp [Tree.walk, Tree.walkWith, hd, hdot, hdots, hget]
  | dir entries => cases n <;> simp [Tree.walk, Tree.walkWith, hd, hdot, hdots, hget]

theorem Walks.walk (h : Walks T d cs e k) (hk : k ≤ n) : T.walk n d cs = some e := by
  induction h generalizing n with
  | nil d => cases n <;> rfl
  | dot hd _ ih => rw [walk_cons_dot hd, ih hk]
  | dots hd _ ih => rw [walk_cons_dots hd, ih hk]
  | name hd hdot hdots hget hlink _ ih => rw [walk_cons_name hd hdot hdots hget hlink, ih hk]
  | @link d e c target cs k hd hdot hdots hget htarget _ ih =>
    obtain ⟨m, rfl⟩ := Nat.exists_eq_add_of_le' (Nat.le_trans (Nat.le_add_left 1 k) hk)
    have ih := ih (Nat.le_of_succ_le_succ hk)
    simp only [Tree.walk, Tree.walkWith, hd, hdot, hdots, hget, htarget, not_true, if_false]
    exact ih

end

/-! ### Places without links -/

/-- A place that can be walked to by its names, without a link on the way. -/
structure Hard (T : Tree) (d : Loc) : Prop where
  walks : Walks T [] d d 0
  names : ∀ c ∈ d, IsName c

section
variable {T : Tree} {d e : Loc} {c : JSString} {cs : List JSString} {k : ℕ}

theorem Hard.root : Hard T [] := ⟨.nil [], nofun⟩

theorem Hard.snoc (h : Hard T d) (hc : IsName c) (hd : T.IsDir d) {node : Node}
    (hget : T.get (d ++ [c]) = some node) (hlink : ∀ target, node ≠ .link target) :
    Hard T (d ++ [c]) := by
  refine ⟨?_, ?_⟩
  · exact h.walks.append (.name hd hc.ne_dot hc.ne_dots hget hlink (.nil _))
  · exact List.forall_mem_append.mpr ⟨h.names, List.forall_mem_singleton.mpr hc⟩

/-- The last name of such a place. -/
theorem Hard.entry (h : Hard T (d ++ [c])) :
    Hard T d ∧ T.IsDir d ∧ ∃ node, T.get (d ++ [c]) = some node ∧ ∀ target, node ≠ .link target := by
  obtain ⟨hnames, hc⟩ := List.forall_mem_append.mp h.names
  obtain ⟨d', k₁, k₂, hk, h₁, h₂⟩ := h.walks.split
  obtain ⟨rfl, rfl⟩ : k₁ = 0 ∧ k₂ = 0 := by omega
  obtain ⟨hd, ⟨node, hget, hlink, h₂⟩ | ⟨_, _, _, _, hlinks, _⟩⟩ :=
    h₂.name_cases (List.forall_mem_singleton.mp hc)
  · obtain rfl : d = d' := (List.append_inj' h₂.nil_cases.1 rfl).1
    exact ⟨⟨h₁, hnames⟩, hd, node, hget, hlink⟩
  · cases hlinks

theorem Hard.dropLast (h : Hard T d) : Hard T d.dropLast := by
  rcases List.eq_nil_or_concat d with rfl | ⟨d, c, rfl⟩
  · exact h
  · rw [List.concat_eq_append, List.dropLast_concat]
    rw [List.concat_eq_append] at h
    exact h.entry.1

theorem components_parts (path : JSString) : ∀ c ∈ components path, c ≠ [] ∧ slash ∉ c := by
  intro c hc
  unfold components at hc
  rcases List.mem_append.mp hc with hc | hc
  · exact pieces_no_slash path c hc
  · split_ifs at hc
    · rw [List.mem_singleton.mp hc]
      decide +kernel
    · cases hc

/-- Wherever a walk comes to can be walked to without a link. -/
theorem Walks.hard (h : Walks T d cs e k) (hd : Hard T d) (hcs : ∀ c ∈ cs, c ≠ [] ∧ slash ∉ c) :
    Hard T e := by
  induction h with
  | nil => exact hd
  | dot _ _ ih => exact ih hd fun c hc => hcs c (List.mem_cons_of_mem _ hc)
  | dots _ _ ih => exact ih hd.dropLast fun c hc => hcs c (List.mem_cons_of_mem _ hc)
  | @name d e c cs k n hdir hdot hdots hget hlink _ ih =>
    have hc := hcs c List.mem_cons_self
    exact ih (hd.snoc ⟨hc.1, hc.2, hdot, hdots⟩ hdir hget hlink) fun c hc =>
      hcs c (List.mem_cons_of_mem _ hc)
  | @link d e c target cs k _ _ _ _ _ _ ih =>
    refine ih ?_ fun c hc => ?_
    · split_ifs
      · exact .root
      · exact hd
    · rcases List.mem_append.mp hc with hc | hc
      · exact components_parts target c hc
      · exact hcs c (List.mem_cons_of_mem _ hc)

end

end NodeJS.Fs
