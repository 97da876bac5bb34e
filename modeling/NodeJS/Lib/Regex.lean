import Mathlib.Data.Nat.Notation
import Mathlib.Logic.Relation
import Mathlib.Tactic.Common

/-! Regular expressions, and the matcher of ECMAScript that tries one way after the other. -/
namespace Lib

inductive Regex (α : Type)
  | start
  | finish
  | cls (p : α → Bool)
  | seq (r t : Regex α)
  | alt (r t : Regex α)
  | opt (r : Regex α)
  | star (greedy : Bool) (r : Regex α)
  | group (n : ℕ) (r : Regex α)
  | notAhead (r : Regex α)

namespace Regex
variable {α : Type}

/-- A position in a text, and what the groups hold there. -/
@[ext] structure At (α : Type) where
  before : ℕ
  rest : List α
  groups : ℕ → Option (List α)

namespace At
variable (s : At α)

/-- The position `n` characters further. -/
def skip (n : ℕ) : At α := ⟨s.before + n, s.rest.drop n, s.groups⟩

def text (t : At α) : List α := s.rest.take (s.rest.length - t.rest.length)

/-- Group `n` holds `text`. -/
def capture (n : ℕ) (text : List α) : At α :=
  { s with groups := fun m => if m = n then some text else s.groups m }

def reset (ns : List ℕ) : At α :=
  { s with groups := fun m => if ns.contains m then none else s.groups m }

@[simp] theorem rest_skip (n : ℕ) : (s.skip n).rest = s.rest.drop n := rfl
@[simp] theorem rest_capture (n : ℕ) (x : List α) : (s.capture n x).rest = s.rest := rfl
@[simp] theorem rest_reset (ns : List ℕ) : (s.reset ns).rest = s.rest := rfl

@[simp] theorem skip_skip (m n : ℕ) : (s.skip m).skip n = s.skip (m + n) := by
  simp [skip, Nat.add_assoc]

theorem reset_nil : s.reset [] = s := rfl

/-- A group that is set anew may be reset before. -/
theorem capture_reset (n m : ℕ) (x : List α) :
    ((s.reset [n]).skip m).capture n x = (s.skip m).capture n x := by
  refine At.ext rfl rfl (funext fun i => ?_)
  unfold capture skip reset
  dsimp only
  split_ifs with hi hmem
  · rfl
  · exact absurd (by simpa using hmem) hi
  · rfl

theorem text_skip {n : ℕ} (hn : n ≤ s.rest.length) : s.text (s.skip n) = s.rest.take n := by
  rw [text, rest_skip, List.length_drop, Nat.sub_sub_self hn]

end At

abbrev Matcher (α : Type) := (At α → Option (At α)) → At α → Option (At α)

/-- `RepeatMatcher`: a round must get further. -/
def rounds (greedy : Bool) (m : Matcher α) (k : At α → Option (At α)) : ℕ → At α → Option (At α)
  | 0, s => k s
  | n + 1, s =>
    let more :=
      m (fun t => if t.rest.length < s.rest.length then rounds greedy m k n t else none) s
    if greedy then more.or (k s) else (k s).or more

def parens : Regex α → List ℕ
  | start | finish | cls _ => []
  | seq r t | alt r t => r.parens ++ t.parens
  | opt r | star _ r | notAhead r => r.parens
  | group n r => n :: r.parens

/-- The first way to match that `k` can go on from. -/
def run : Regex α → Matcher α
  | start, k, s => if s.before = 0 then k s else none
  | finish, k, s => if s.rest.isEmpty then k s else none
  | cls p, k, s =>
    match s.rest with
    | [] => none
    | c :: _ => if p c then k (s.skip 1) else none
  | seq r t, k, s => r.run (t.run k) s
  | alt r t, k, s => (r.run k s).or (t.run k s)
  | opt r, k, s =>
    (r.run (fun t => if t.rest.length < s.rest.length then k t else none) (s.reset r.parens)).or
      (k s)
  | star greedy r, k, s =>
    rounds greedy (fun k s => r.run k (s.reset r.parens)) k s.rest.length s
  | group n r, k, s => r.run (fun t => k (t.capture n (s.text t))) s
  | notAhead r, k, s => if (r.run some s).isSome then none else k s

/-- A match: where it begins and where it ends. -/
abbrev Found (α : Type) := At α × At α

/-- `exec` from a position on. -/
def exec (r : Regex α) (before : ℕ) : List α → Option (Found α)
  | [] => (r.run some ⟨before, [], fun _ => none⟩).map (⟨before, [], fun _ => none⟩, ·)
  | c :: rest =>
    match r.run some ⟨before, c :: rest, fun _ => none⟩ with
    | some t => some (⟨before, c :: rest, fun _ => none⟩, t)
    | none => exec r (before + 1) rest

/-- `r+` -/
def plus (greedy : Bool) (r : Regex α) : Regex α := .seq r (.star greedy r)

def lit [DecidableEq α] (c : α) : Regex α := .cls (· == c)

/-! ### The matcher -/

section
variable {k : At α → Option (At α)} {s : At α}

theorem rounds_none {greedy : Bool} {m : Matcher α} (hm : ∀ s, m (fun _ => none) s = none)
    (n : ℕ) (s : At α) : rounds greedy m (fun _ => none) n s = none := by
  induction n generalizing s with
  | zero => rfl
  | succ n ih =>
    have hmore : (fun t : At α => if t.rest.length < s.rest.length then
        rounds greedy m (fun _ => none) n t else none) = fun _ => none := by
      funext t
      rw [ih, ite_self]
    unfold rounds
    rw [hmore, hm]
    split_ifs <;> rfl

theorem run_seq (r t : Regex α) : (seq r t).run k s = r.run (t.run k) s := rfl

theorem run_alt (r t : Regex α) : (alt r t).run k s = (r.run k s).or (t.run k s) := rfl

theorem run_group (n : ℕ) (r : Regex α) :
    (group n r).run k s = r.run (fun t => k (t.capture n (s.text t))) s := rfl

/-- What follows an optional part that is there, so is not empty. -/
def past (s : At α) (k : At α → Option (At α)) (t : At α) : Option (At α) :=
  if t.rest.length < s.rest.length then k t else none

theorem past_of_lt {t : At α} (h : t.rest.length < s.rest.length) : past s k t = k t := if_pos h

theorem past_skip (hs : s.rest ≠ []) (n : ℕ) : past s k (s.skip (n + 1)) = k (s.skip (n + 1)) := by
  refine past_of_lt ?_
  have hpos := List.length_pos_iff.mpr hs
  rw [At.rest_skip, List.length_drop]
  omega

theorem run_opt (r : Regex α) :
    (opt r).run k s = (r.run (past s k) (s.reset r.parens)).or (k s) := rfl

theorem isSome_run_opt {r : Regex α} (h : (k s).isSome) : ((opt r).run k s).isSome := by
  rw [run_opt, Option.isSome_or, h, Bool.or_true]

theorem run_opt_of_none {r : Regex α} (h : r.run (past s k) (s.reset r.parens) = none) :
    (opt r).run k s = k s := by
  rw [run_opt, h, Option.none_or]

theorem run_opt_of_isSome {r : Regex α} (h : (r.run (past s k) (s.reset r.parens)).isSome) :
    (opt r).run k s = r.run (past s k) (s.reset r.parens) := by
  rw [run_opt]
  exact Option.or_of_isSome h

/-- Nothing matches if nothing may follow. -/
theorem run_none (r : Regex α) (s : At α) : r.run (fun _ => none) s = none := by
  induction r generalizing s with
  | start | finish => exact ite_self _
  | cls p =>
    unfold run
    split
    · rfl
    · exact ite_self _
  | seq r t ihr iht =>
    have hrest : t.run (fun _ => none) = fun _ => none := funext iht
    rw [run, hrest, ihr]
  | alt r t ihr iht => rw [run, ihr, iht, Option.or_none]
  | opt r ih =>
    have hrest : (fun t : At α => if t.rest.length < s.rest.length then (none : Option (At α))
        else none) = fun _ => none := funext fun _ => ite_self _
    rw [run, hrest, ih, Option.or_none]
  | star greedy r ih => exact rounds_none (fun s => ih (s.reset r.parens)) _ s
  | group n r ih => exact ih s
  | notAhead r ih => exact ite_self _

/-- The rounds are not cut short. -/
theorem rounds_eq {greedy : Bool} {m : Matcher α} (hm : ∀ s, m (fun _ => none) s = none)
    {n n' : ℕ} (hn : s.rest.length ≤ n) (hn' : s.rest.length ≤ n') :
    rounds greedy m k n s = rounds greedy m k n' s := by
  induction n generalizing n' s with
  | zero =>
    cases n' with
    | zero => rfl
    | succ n' =>
      have hmore : (fun t : At α => if t.rest.length < s.rest.length then rounds greedy m k n' t
          else none) = fun _ => none := funext fun t => if_neg (by omega)
      rw [rounds, rounds, hmore, hm]
      cases greedy <;> simp
  | succ n ih =>
    cases n' with
    | zero =>
      have hmore : (fun t : At α => if t.rest.length < s.rest.length then rounds greedy m k n t
          else none) = fun _ => none := funext fun t => if_neg (by omega)
      rw [rounds, rounds, hmore, hm]
      cases greedy <;> simp
    | succ n' =>
      have hmore : (fun t : At α => if t.rest.length < s.rest.length then rounds greedy m k n t
          else none) =
          fun t => if t.rest.length < s.rest.length then rounds greedy m k n' t else none := by
        funext t
        split_ifs with ht
        · exact ih (by omega) (by omega)
        · rfl
      rw [rounds, rounds, hmore]

/-- One more round, or what follows. -/
theorem run_star (greedy : Bool) (r : Regex α) :
    (star greedy r).run k s =
      let more := r.run (fun t => if t.rest.length < s.rest.length then (star greedy r).run k t
        else none) (s.reset r.parens)
      if greedy then more.or (k s) else (k s).or more := by
  have hm : ∀ s : At α, r.run (fun _ => none) (s.reset r.parens) = none := fun s => run_none r _
  have hfuel : (star greedy r).run k s =
      rounds greedy (fun k s => r.run k (s.reset r.parens)) k (s.rest.length + 1) s :=
    rounds_eq hm (Nat.le_refl _) (Nat.le_succ _)
  have hmore : (fun t : At α => if t.rest.length < s.rest.length then
      rounds greedy (fun k s => r.run k (s.reset r.parens)) k s.rest.length t else none) =
      fun t => if t.rest.length < s.rest.length then (star greedy r).run k t else none := by
    funext t
    split_ifs with ht
    · exact rounds_eq hm (Nat.le_of_lt ht) (Nat.le_refl _)
    · rfl
  rw [hfuel, rounds, hmore]

end

/-- An expression that begins with `^` is tried only once. -/
theorem exec_start (r : Regex α) (x : List α) :
    (seq start r).exec 0 x =
      (r.run some ⟨0, x, fun _ => none⟩).map (⟨0, x, fun _ => none⟩, ·) := by
  have hlater : ∀ before (x : List α), before ≠ 0 → (seq start r).exec before x = none := by
    intro before x
    induction x generalizing before with
    | nil =>
      intro hbefore
      have hrun : (seq start r).run some ⟨before, [], fun _ => none⟩ = none := if_neg hbefore
      rw [exec, hrun]
      rfl
    | cons c x ih =>
      intro hbefore
      have hrun : (seq start r).run some ⟨before, c :: x, fun _ => none⟩ = none := if_neg hbefore
      rw [exec, hrun]
      exact ih (before + 1) (Nat.succ_ne_zero before)
  have hrun : (seq start r).run some ⟨0, x, fun _ => none⟩ =
      r.run some ⟨0, x, fun _ => none⟩ := by
    rw [run, run]
    exact if_pos rfl
  cases x with
  | nil => rw [exec, hrun]
  | cons c x =>
    rw [exec, hrun]
    cases r.run some ⟨0, c :: x, fun _ => none⟩ with
    | none => exact hlater 1 x Nat.one_ne_zero
    | some t => rfl

/-- A match lies in the text. -/
theorem exec_text_le (r : Regex α) {before : ℕ} {x : List α} {found : Found α}
    (h : r.exec before x = some found) : (found.1.text found.2).length ≤ x.length := by
  have htext : (found.1.text found.2).length ≤ found.1.rest.length := by
    rw [At.text, List.length_take]
    exact Nat.min_le_right _ _
  induction x generalizing before with
  | nil =>
    obtain ⟨t, -, rfl⟩ := Option.map_eq_some_iff.mp h
    exact htext
  | cons c rest ih =>
    rw [exec] at h
    split at h
    · obtain rfl := Option.some.inj h
      exact htext
    · exact Nat.le_succ_of_le (ih h)

/-! ### Repeated characters -/

section
variable {k : At α → Option (At α)} {s : At α} {p : α → Bool}

theorem skip_one_skip (s : At α) (n : ℕ) : (s.skip 1).skip n = s.skip (n + 1) := by
  rw [At.skip_skip, Nat.add_comm]

/-- `n` characters of the class are there. -/
def Ahead (p : α → Bool) (s : At α) (n : ℕ) : Prop :=
  n ≤ s.rest.length ∧ ∀ c ∈ s.rest.take n, p c = true

theorem Ahead.zero (p : α → Bool) (s : At α) : Ahead p s 0 :=
  ⟨Nat.zero_le _, by simp⟩

theorem ahead_succ {c : α} {rest : List α} (hs : s.rest = c :: rest) (n : ℕ) :
    Ahead p s (n + 1) ↔ p c = true ∧ Ahead p (s.skip 1) n := by
  simp only [Ahead, At.rest_skip, hs, List.length_cons, List.take_succ_cons, List.forall_mem_cons,
    Nat.succ_le_succ_iff, List.drop_succ_cons, List.drop_zero]
  exact and_left_comm

theorem exists_cons_of_ahead {n : ℕ} (h : Ahead p s (n + 1)) : ∃ c rest, s.rest = c :: rest := by
  refine List.exists_cons_of_ne_nil fun hnil => ?_
  have hlength := h.1
  rw [hnil] at hlength
  cases hlength

theorem ahead_iff {n : ℕ} : Ahead p s n ↔ n ≤ (s.rest.takeWhile p).length := by
  induction n generalizing s with
  | zero => exact iff_of_true (.zero p s) (Nat.zero_le _)
  | succ n ih =>
    cases hs : s.rest with
    | nil => exact iff_of_false (fun h => by simpa [hs] using h.1) (by simp)
    | cons c rest =>
      have hrest : (s.skip 1).rest = rest := by rw [At.rest_skip, hs, List.drop_one, List.tail_cons]
      rw [ahead_succ hs, ih, hrest, List.takeWhile_cons]
      split_ifs with hc
      · simp [hc]
      · simp [hc]

theorem run_cls_cons {c : α} {rest : List α} (hs : s.rest = c :: rest) :
    (cls p).run k s = if p c then k (s.skip 1) else none := by
  unfold run
  rw [hs]

theorem run_cls_nil (hs : s.rest = []) : (cls p).run k s = none := by
  unfold run
  rw [hs]

theorem run_lit_cons [DecidableEq α] {c d : α} {rest : List α} (hs : s.rest = c :: rest) :
    (lit d).run k s = if c = d then k (s.skip 1) else none := by
  simp [lit, run_cls_cons hs]

theorem run_lit_nil [DecidableEq α] {d : α} (hs : s.rest = []) : (lit d).run k s = none :=
  run_cls_nil hs

/-- Another character of the class, or what follows. -/
theorem run_star_cons {greedy : Bool} {c : α} {rest : List α} (hs : s.rest = c :: rest) :
    (star greedy (cls p)).run k s =
      let more := if p c then (star greedy (cls p)).run k (s.skip 1) else none
      if greedy then more.or (k s) else (k s).or more := by
  have hless : (s.skip 1).rest.length < s.rest.length := by simp [hs]
  rw [run_star, parens, At.reset_nil, run_cls_cons hs, if_pos hless]

theorem run_star_nil {greedy : Bool} (hs : s.rest = []) :
    (star greedy (cls p)).run k s = k s := by
  rw [run_star, parens, At.reset_nil, run_cls_nil hs]
  cases greedy <;> simp

theorem run_star_none {greedy : Bool} (h : ∀ n, Ahead p s n → k (s.skip n) = none) :
    (star greedy (cls p)).run k s = none := by
  induction hs : s.rest generalizing s with
  | nil => exact (run_star_nil hs).trans (h 0 (.zero p s))
  | cons c rest ih =>
    have hnone : k s = none := h 0 (.zero p s)
    have hmore : (if p c then (star greedy (cls p)).run k (s.skip 1) else none) = none := by
      split_ifs with hc
      · refine ih (fun n hn => ?_) (by rw [At.rest_skip, hs]; rfl)
        rw [skip_one_skip]
        exact h (n + 1) ((ahead_succ hs n).mpr ⟨hc, hn⟩)
      · rfl
    rw [run_star_cons hs, hmore, hnone]
    cases greedy <;> rfl

/-- Some number of characters is enough. -/
theorem isSome_run_star {greedy : Bool} {n : ℕ} (hn : Ahead p s n) (hk : (k (s.skip n)).isSome) :
    ((star greedy (cls p)).run k s).isSome := by
  by_contra hnone
  induction n generalizing s with
  | zero =>
    cases hs : s.rest with
    | nil => exact hnone ((run_star_nil hs).symm ▸ hk)
    | cons c rest =>
      rw [run_star_cons hs] at hnone
      cases greedy with
      | false => exact hnone (by simpa [Option.isSome_or] using .inl hk)
      | true => exact hnone (by simpa [Option.isSome_or] using .inr hk)
  | succ n ih =>
    obtain ⟨c, rest, hs⟩ := exists_cons_of_ahead hn
    obtain ⟨hc, hn⟩ := (ahead_succ hs n).mp hn
    rw [run_star_cons hs] at hnone
    refine ih hn (by rwa [skip_one_skip]) fun hmore => hnone ?_
    cases greedy with
    | false => simp [Option.isSome_or, hc, hmore]
    | true => simp [Option.isSome_or, hc, hmore]

/-- A greedy star takes as much as it can. -/
theorem run_greedy {n : ℕ} (hn : Ahead p s n) (hk : (k (s.skip n)).isSome)
    (hmore : ∀ m, n < m → Ahead p s m → k (s.skip m) = none) :
    (star true (cls p)).run k s = k (s.skip n) := by
  induction n generalizing s with
  | zero =>
    cases hs : s.rest with
    | nil => exact run_star_nil hs
    | cons c rest =>
      have hnone : (if p c then (star true (cls p)).run k (s.skip 1) else none) = none := by
        split_ifs with hc
        · refine run_star_none fun m hm => ?_
          rw [skip_one_skip]
          exact hmore (m + 1) (Nat.succ_pos m) ((ahead_succ hs m).mpr ⟨hc, hm⟩)
        · rfl
      rw [run_star_cons hs, hnone]
      rfl
  | succ n ih =>
    obtain ⟨c, rest, hs⟩ := exists_cons_of_ahead hn
    obtain ⟨hc, hn⟩ := (ahead_succ hs n).mp hn
    have hstar : (star true (cls p)).run k (s.skip 1) = k (s.skip (n + 1)) := by
      rw [ih hn (by rwa [skip_one_skip]) fun m hm hahead => ?_, skip_one_skip]
      rw [skip_one_skip]
      exact hmore (m + 1) (Nat.succ_lt_succ hm) ((ahead_succ hs m).mpr ⟨hc, hahead⟩)
    rw [run_star_cons hs]
    dsimp only
    rw [if_pos rfl, if_pos hc, hstar]
    exact Option.or_of_isSome hk

/-- A lazy star takes as little as it can. -/
theorem run_lazy {n : ℕ} (hn : Ahead p s n) (hk : (k (s.skip n)).isSome)
    (hless : ∀ m < n, k (s.skip m) = none) :
    (star false (cls p)).run k s = k (s.skip n) := by
  induction n generalizing s with
  | zero =>
    cases hs : s.rest with
    | nil => exact run_star_nil hs
    | cons c rest =>
      rw [run_star_cons hs]
      exact Option.or_of_isSome hk
  | succ n ih =>
    obtain ⟨c, rest, hs⟩ := exists_cons_of_ahead hn
    obtain ⟨hc, hn⟩ := (ahead_succ hs n).mp hn
    have hstar : (star false (cls p)).run k (s.skip 1) = k (s.skip (n + 1)) := by
      rw [ih hn (by rwa [skip_one_skip]) fun m hm => ?_, skip_one_skip]
      rw [skip_one_skip]
      exact hless (m + 1) (Nat.succ_lt_succ hm)
    have hfirst : k s = none := hless 0 (Nat.succ_pos n)
    rw [run_star_cons hs]
    dsimp only
    rw [if_neg Bool.false_ne_true, if_pos hc, hstar, hfirst, Option.none_or]

/-! The first of the characters, and those after it. -/

theorem run_plus {greedy : Bool} {n : ℕ} (hn : Ahead p s (n + 1)) :
    (plus greedy (cls p)).run k s = (star greedy (cls p)).run k (s.skip 1) := by
  obtain ⟨c, rest, hs⟩ := exists_cons_of_ahead hn
  rw [plus, run_seq, run_cls_cons hs, if_pos ((ahead_succ hs n).mp hn).1]

theorem ahead_skip_one {n : ℕ} (hn : Ahead p s (n + 1)) : Ahead p (s.skip 1) n := by
  obtain ⟨c, rest, hs⟩ := exists_cons_of_ahead hn
  exact ((ahead_succ hs n).mp hn).2

theorem ahead_of_skip_one {n m : ℕ} (hn : Ahead p s (n + 1)) (hm : Ahead p (s.skip 1) m) :
    Ahead p s (m + 1) := by
  obtain ⟨c, rest, hs⟩ := exists_cons_of_ahead hn
  exact (ahead_succ hs m).mpr ⟨((ahead_succ hs n).mp hn).1, hm⟩

theorem run_plus_none {greedy : Bool} (h : ∀ n, Ahead p s (n + 1) → k (s.skip (n + 1)) = none) :
    (plus greedy (cls p)).run k s = none := by
  by_cases hn : Ahead p s 1
  · rw [run_plus hn]
    refine run_star_none fun n hahead => ?_
    rw [skip_one_skip]
    exact h n (ahead_of_skip_one hn hahead)
  · rw [plus, run_seq]
    cases hs : s.rest with
    | nil => exact run_cls_nil hs
    | cons c rest =>
      rw [run_cls_cons hs]
      exact if_neg fun hc => hn ((ahead_succ hs 0).mpr ⟨hc, .zero p _⟩)

theorem isSome_run_plus {greedy : Bool} {n : ℕ} (hn : Ahead p s (n + 1))
    (hk : (k (s.skip (n + 1))).isSome) : ((plus greedy (cls p)).run k s).isSome := by
  rw [run_plus hn]
  exact isSome_run_star (ahead_skip_one hn) (by rwa [skip_one_skip])

theorem run_plus_greedy {n : ℕ} (hn : Ahead p s (n + 1)) (hk : (k (s.skip (n + 1))).isSome)
    (hmore : ∀ m, n < m → Ahead p s (m + 1) → k (s.skip (m + 1)) = none) :
    (plus true (cls p)).run k s = k (s.skip (n + 1)) := by
  rw [run_plus hn, run_greedy (ahead_skip_one hn) (by rwa [skip_one_skip]) fun m hm hahead => ?_,
    skip_one_skip]
  rw [skip_one_skip]
  exact hmore m hm (ahead_of_skip_one hn hahead)

theorem run_plus_lazy {n : ℕ} (hn : Ahead p s (n + 1)) (hk : (k (s.skip (n + 1))).isSome)
    (hless : ∀ m < n, k (s.skip (m + 1)) = none) :
    (plus false (cls p)).run k s = k (s.skip (n + 1)) := by
  rw [run_plus hn, run_lazy (ahead_skip_one hn) (by rwa [skip_one_skip]) fun m hm => ?_,
    skip_one_skip]
  rw [skip_one_skip]
  exact hless m hm

end

/-! ### What is taken -/

/-- The text before and after a match, whatever the groups hold. -/
def Takes : Regex α → List α → List α → Prop
  | start, x, y => x = y
  | finish, x, y => x = y ∧ x = []
  | cls p, x, y => ∃ c, p c = true ∧ x = c :: y
  | seq r t, x, y => ∃ z, r.Takes x z ∧ t.Takes z y
  | alt r t, x, y => r.Takes x y ∨ t.Takes x y
  | opt r, x, y => r.Takes x y ∨ x = y
  | star _ r, x, y => Relation.ReflTransGen r.Takes x y
  | group _ r, x, y => r.Takes x y
  | notAhead _, x, y => x = y

section
variable {k : At α → Option (At α)} {s u : At α}

theorem rounds_takes {greedy : Bool} {m : Matcher α} {R : List α → List α → Prop}
    (hm : ∀ k s, m k s = some u → ∃ t, R s.rest t.rest ∧ k t = some u) {n : ℕ}
    (h : rounds greedy m k n s = some u) :
    ∃ t : At α, Relation.ReflTransGen R s.rest t.rest ∧ k t = some u := by
  induction n generalizing s with
  | zero => exact ⟨s, .refl, h⟩
  | succ n ih =>
    have hmore : m (fun t => if t.rest.length < s.rest.length then rounds greedy m k n t
        else none) s = some u ∨ k s = some u := by
      cases greedy with
      | false => exact (Option.or_eq_some_iff.mp h).elim .inr fun h => .inl h.2
      | true => exact (Option.or_eq_some_iff.mp h).imp_right And.right
    rcases hmore with hmore | hdone
    · obtain ⟨t, ht, hrest⟩ := hm _ s hmore
      split_ifs at hrest
      obtain ⟨t', ht', hk⟩ := ih hrest
      exact ⟨t', .head ht ht', hk⟩
    · exact ⟨s, .refl, hdone⟩

/-- A match takes what the expression stands for. -/
theorem takes_of_run {r : Regex α} (h : r.run k s = some u) :
    ∃ t, r.Takes s.rest t.rest ∧ k t = some u := by
  induction r generalizing k s with
  | start =>
    unfold run at h
    split_ifs at h
    exact ⟨s, rfl, h⟩
  | finish =>
    unfold run at h
    split_ifs at h with hnil
    exact ⟨s, ⟨rfl, List.isEmpty_iff.mp hnil⟩, h⟩
  | cls p =>
    cases hs : s.rest with
    | nil =>
      rw [run_cls_nil hs] at h
      cases h
    | cons c rest =>
      rw [run_cls_cons hs] at h
      split_ifs at h with hc
      refine ⟨s.skip 1, ⟨c, hc, ?_⟩, h⟩
      rw [At.rest_skip, hs]
      rfl
  | seq r t ihr iht =>
    obtain ⟨t₁, hr, h⟩ := ihr h
    obtain ⟨t₂, ht, h⟩ := iht h
    exact ⟨t₂, ⟨_, hr, ht⟩, h⟩
  | alt r t ihr iht =>
    rcases Option.or_eq_some_iff.mp h with h | ⟨-, h⟩
    · obtain ⟨t₁, hr, h⟩ := ihr h
      exact ⟨t₁, .inl hr, h⟩
    · obtain ⟨t₁, ht, h⟩ := iht h
      exact ⟨t₁, .inr ht, h⟩
  | opt r ih =>
    rcases Option.or_eq_some_iff.mp h with h | ⟨-, h⟩
    · obtain ⟨t, hr, h⟩ := ih h
      split_ifs at h
      exact ⟨t, .inl hr, h⟩
    · exact ⟨s, .inr rfl, h⟩
  | star greedy r ih =>
    exact rounds_takes (m := fun k s => r.run k (s.reset r.parens))
      (fun k s h => ih (s := s.reset r.parens) h) h
  | group n r ih =>
    obtain ⟨t, hr, h⟩ := ih h
    exact ⟨t.capture n (s.text t), hr, h⟩
  | notAhead r =>
    unfold run at h
    split_ifs at h
    exact ⟨s, rfl, h⟩

theorem takes_lit [DecidableEq α] {c : α} {x y : List α} (h : (lit c).Takes x y) : x = c :: y := by
  obtain ⟨d, hd, rfl⟩ := h
  rw [eq_of_beq hd]

/-- Repeated characters. -/
theorem takes_star_cls {greedy : Bool} {p : α → Bool} {x y : List α}
    (h : (star greedy (cls p)).Takes x y) : ∃ z, (∀ c ∈ z, p c = true) ∧ x = z ++ y := by
  induction h using Relation.ReflTransGen.head_induction_on with
  | refl => exact ⟨[], by simp, rfl⟩
  | head hfirst _ ih =>
    obtain ⟨c, hc, rfl⟩ := hfirst
    obtain ⟨z, hz, rfl⟩ := ih
    exact ⟨c :: z, List.forall_mem_cons.mpr ⟨hc, hz⟩, rfl⟩

end

end Regex

end Lib
