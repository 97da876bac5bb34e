import NodeJS.Lib.Regex

/-! `replace` with a global expression: every match gives way to one text. -/
namespace Lib.Regex
variable {α : Type}

/-- The text from a position on, of which `skip` more characters have matched. -/
def replaceFrom (r : Regex α) (text : List α) (before : ℕ) : ℕ → List α → List α
  | _, [] => if (r.run some ⟨before, [], fun _ => none⟩).isSome then text else []
  | skip + 1, _ :: rest => replaceFrom r text (before + 1) skip rest
  | 0, c :: rest =>
    match r.run some ⟨before, c :: rest, fun _ => none⟩ with
    | none => c :: replaceFrom r text (before + 1) 0 rest
    | some t =>
      match (c :: rest).length - t.rest.length with
      | 0 => text ++ c :: replaceFrom r text (before + 1) 0 rest
      | skip + 1 => text ++ replaceFrom r text (before + 1) skip rest

/-- `x.replace(r, text)` for `r` with the flag `g`. -/
def replace (r : Regex α) (text x : List α) : List α := replaceFrom r text 0 0 x

section
variable {r : Regex α} {text : List α} {before : ℕ} {c : α} {rest : List α}

theorem replaceFrom_none (h : r.run some ⟨before, c :: rest, fun _ => none⟩ = none) :
    replaceFrom r text before 0 (c :: rest) = c :: replaceFrom r text (before + 1) 0 rest := by
  rw [replaceFrom, h]

/-- A match of one character. -/
theorem replaceFrom_one {t : At α} (h : r.run some ⟨before, c :: rest, fun _ => none⟩ = some t)
    (ht : t.rest = rest) :
    replaceFrom r text before 0 (c :: rest) = text ++ replaceFrom r text (before + 1) 0 rest := by
  have hlength : (c :: rest).length - t.rest.length = 1 := by
    rw [ht, List.length_cons, Nat.add_sub_cancel_left]
  rw [replaceFrom, h]
  dsimp only
  rw [hlength]

/-- A match of two characters. -/
theorem replaceFrom_two {d : α} {t : At α}
    (h : r.run some ⟨before, c :: d :: rest, fun _ => none⟩ = some t) (ht : t.rest = rest) :
    replaceFrom r text before 0 (c :: d :: rest) =
      text ++ replaceFrom r text (before + 2) 0 rest := by
  have hlength : (c :: d :: rest).length - t.rest.length = 2 := by
    rw [ht, List.length_cons, List.length_cons]
    omega
  rw [replaceFrom, h]
  dsimp only
  rw [hlength]
  exact congrArg (text ++ ·) (by cases rest <;> rfl)

theorem replaceFrom_nil (h : r.run some ⟨before, [], fun _ => none⟩ = none) (skip : ℕ) :
    replaceFrom r text before skip [] = [] := by
  cases skip <;> simp [replaceFrom, h]

end

/-- Every character of a class is replaced. -/
theorem replace_cls (p : α → Bool) (text x : List α) :
    replace (.cls p) text x = x.flatMap fun c => if p c then text else [c] := by
  have hfrom : ∀ before, replaceFrom (.cls p) text before 0 x =
      x.flatMap fun c => if p c then text else [c] := by
    induction x with
    | nil => exact fun before => replaceFrom_nil rfl 0
    | cons c x ih =>
      intro before
      rw [List.flatMap_cons, ← ih (before + 1)]
      have hrun : (cls p).run some ⟨before, c :: x, fun _ => none⟩ =
          if p c then some (At.skip ⟨before, c :: x, fun _ => none⟩ 1) else none := rfl
      split_ifs at hrun ⊢ with hc
      · exact replaceFrom_one hrun rfl
      · exact replaceFrom_none hrun
  exact hfrom 0

/-! ### Two characters -/

/-- `x` with every `c d`, `c` of the class `p` and `d` of the class `q`, replaced. -/
def replacePairs (p q : α → Bool) (text : List α) : List α → List α
  | c :: d :: rest =>
    if p c && q d then text ++ replacePairs p q text rest
    else c :: replacePairs p q text (d :: rest)
  | x => x

section
variable {p q : α → Bool} {text : List α} {c d : α} {rest : List α}

theorem replacePairs_pair (hc : p c = true) (hd : q d = true) :
    replacePairs p q text (c :: d :: rest) = text ++ replacePairs p q text rest := by
  rw [replacePairs, hc, hd]
  rfl

theorem replacePairs_left (hc : p c = false) :
    replacePairs p q text (c :: rest) = c :: replacePairs p q text rest := by
  cases rest with
  | nil => rfl
  | cons d rest =>
    rw [replacePairs, hc]
    rfl

theorem replacePairs_right (hd : ∀ d ∈ rest.head?, q d = false) :
    replacePairs p q text (c :: rest) = c :: replacePairs p q text rest := by
  cases rest with
  | nil => rfl
  | cons d rest =>
    rw [replacePairs, hd d rfl, Bool.and_false]
    rfl

theorem run_pair (p q : α → Bool) (before : ℕ) (c d : α) (rest : List α) :
    (seq (cls p) (cls q)).run some ⟨before, c :: d :: rest, fun _ => none⟩ =
      if p c && q d then some (At.skip ⟨before, c :: d :: rest, fun _ => none⟩ 2) else none := by
  have hrun : (seq (cls p) (cls q)).run some ⟨before, c :: d :: rest, fun _ => none⟩ =
      if p c then if q d then some (At.skip ⟨before, c :: d :: rest, fun _ => none⟩ 2) else none
      else none := rfl
  rw [hrun]
  cases p c
  · rfl
  · rfl

theorem replace_seq (p q : α → Bool) (text x : List α) :
    replace (.seq (.cls p) (.cls q)) text x = replacePairs p q text x := by
  have hfrom : ∀ before, replaceFrom (.seq (.cls p) (.cls q)) text before 0 x =
      replacePairs p q text x := by
    induction x using replacePairs.induct p q with
    | case1 c d rest hcd ih =>
      intro before
      have hrun := run_pair p q before c d rest
      rw [if_pos hcd] at hrun
      rw [replaceFrom_two hrun rfl, ih, replacePairs, if_pos hcd]
    | case2 c d rest hcd ih =>
      intro before
      have hrun := run_pair p q before c d rest
      rw [if_neg hcd] at hrun
      rw [replaceFrom_none hrun, ih, replacePairs, if_neg hcd]
    | case3 x hx =>
      intro before
      match x, hx with
      | [], _ => exact replaceFrom_nil rfl 0
      | [c], _ =>
        have hrun : (seq (cls p) (cls q)).run some ⟨before, [c], fun _ => none⟩ = none :=
          ite_self _
        rw [replaceFrom_none hrun, replaceFrom_nil rfl]
        rfl
      | c :: d :: rest, hx => exact absurd rfl (hx c d rest)
  exact hfrom 0

end

/-! ### The first and the last character -/

/-- `^p|p$` -/
def ends (p : α → Bool) : Regex α := .alt (.seq .start (.cls p)) (.seq (.cls p) .finish)

section
variable {p : α → Bool} {k : At α → Option (At α)} {before : ℕ} {c d : α} {rest : List α}
  {groups : ℕ → Option (List α)}

/-- A character of the class is matched at an end of the text. -/
theorem run_ends (hk : ∀ t, (k t).isSome) :
    (ends p).run k ⟨before, c :: rest, groups⟩ =
      if p c ∧ (before = 0 ∨ rest = []) then k ⟨before + 1, rest, groups⟩ else none := by
  have hfirst : (seq start (cls p)).run k ⟨before, c :: rest, groups⟩ =
      if before = 0 then if p c then k ⟨before + 1, rest, groups⟩ else none else none := rfl
  have hlast : (seq (cls p) finish).run k ⟨before, c :: rest, groups⟩ =
      if p c then if rest.isEmpty then k ⟨before + 1, rest, groups⟩ else none else none := rfl
  have hempty : rest.isEmpty = true ↔ rest = [] := List.isEmpty_iff
  rw [ends, run_alt, hfirst, hlast]
  by_cases hc : p c = true
  · by_cases hbefore : before = 0
    · simp only [hc, hbefore, if_true, true_or, and_self]
      exact Option.or_of_isSome (hk _)
    · simp only [hc, hbefore, hempty, if_true, if_false, false_or, true_and, Option.none_or]
  · rw [if_neg hc, if_neg hc, ite_self, if_neg fun h => hc h.1, Option.none_or]

/-- Matched as by `^p|p$`, in a group or not. -/
def IsEnds (p : α → Bool) (r : Regex α) : Prop :=
  (∀ before, r.run some ⟨before, [], fun _ => none⟩ = none) ∧
    ∀ before c rest, ∃ t : At α, t.rest = rest ∧
      r.run some ⟨before, c :: rest, fun _ => none⟩ =
        if p c ∧ (before = 0 ∨ rest = []) then some t else none

theorem isEnds_ends (p : α → Bool) : IsEnds p (ends p) :=
  ⟨fun before => by cases before <;> rfl,
    fun before c rest => ⟨⟨before + 1, rest, fun _ => none⟩, rfl, run_ends fun _ => rfl⟩⟩

theorem isEnds_group (n : ℕ) (p : α → Bool) : IsEnds p (.group n (ends p)) := by
  refine ⟨fun before => by cases before <;> rfl, fun before c rest => ?_⟩
  let s : At α := ⟨before, c :: rest, fun _ => none⟩
  let t : At α := ⟨before + 1, rest, fun _ => none⟩
  refine ⟨t.capture n (s.text t), rfl, ?_⟩
  rw [run_group]
  exact run_ends fun _ => rfl

variable {r : Regex α} {text body : List α}

/-- Away from the beginning, only the last character is replaced. -/
theorem IsEnds.replaceFrom_succ (h : IsEnds p r) (hd : p d = true) :
    replaceFrom r text (before + 1) 0 (body ++ [d]) = body ++ text := by
  induction body generalizing before with
  | nil =>
    obtain ⟨t, ht, hrun⟩ := h.2 (before + 1) d []
    rw [if_pos ⟨hd, Or.inr rfl⟩] at hrun
    rw [List.nil_append, replaceFrom_one hrun ht, replaceFrom_nil (h.1 _), List.append_nil,
      List.nil_append]
  | cons c body ih =>
    obtain ⟨t, -, hrun⟩ := h.2 (before + 1) c (body ++ [d])
    rw [if_neg (by simp)] at hrun
    rw [List.cons_append, replaceFrom_none hrun, ih, List.cons_append]

/-- Both ends of a text are replaced. -/
theorem IsEnds.replace (h : IsEnds p r) (hc : p c = true) (hd : p d = true) :
    r.replace text (c :: body ++ [d]) = text ++ body ++ text := by
  obtain ⟨t, ht, hrun⟩ := h.2 0 c (body ++ [d])
  rw [if_pos ⟨hc, Or.inl rfl⟩] at hrun
  rw [Regex.replace, List.cons_append, replaceFrom_one hrun ht, h.replaceFrom_succ hd,
    List.append_assoc]

end

end Lib.Regex
