import NodeJS.Fs.Path
import Mathlib.Data.List.Induction

/-! `normalizeArray` as it edits its array, and the stack that reads the parts from the left. -/
namespace NodeJS.Path

/-! ### The scan -/

/-- The body of the first loop, for one `i`. -/
def scanRound (i : ℕ) : List JSString × ℕ → List JSString × ℕ
  | (parts, up) =>
    let last := parts[i]?
    if last = some (js ".") then (parts.eraseIdx i, up)
    else if last = some (js "..") then (parts.eraseIdx i, up + 1)
    else if up ≠ 0 then (parts.eraseIdx i, up - 1)
    else (parts, up)

/-- The first loop, from `i` down to 0. -/
def scanParts : ℕ → List JSString × ℕ → List JSString × ℕ
  | 0, v => scanRound 0 v
  | i + 1, v => scanParts i (scanRound (i + 1) v)

def restoreParts : ℕ → List JSString → List JSString
  | 0, parts => parts
  | up + 1, parts => restoreParts up (js ".." :: parts)

/-- `normalizeArray` of lib/path.js. -/
def normalizeInPlace (parts : List JSString) (allowAboveRoot : Bool) : List JSString :=
  let (parts, up) := scanParts parts.length (parts, 0)
  if allowAboveRoot then restoreParts up parts else parts

theorem scanRound_append (front : List JSString) (last : JSString) (back : List JSString) (up : ℕ) :
    scanRound front.length (front ++ last :: back, up) =
      (front ++ (normalizeStep last (back, up)).1, (normalizeStep last (back, up)).2) := by
  have hget : (front ++ last :: back)[front.length]? = some last := by
    rw [List.getElem?_append_right (Nat.le_refl _), Nat.sub_self]
    rfl
  have herase : (front ++ last :: back).eraseIdx front.length = front ++ back := by
    rw [List.eraseIdx_append_of_length_le (Nat.le_refl _), Nat.sub_self]
    rfl
  unfold scanRound normalizeStep
  dsimp only
  rw [hget, herase]
  simp only [Option.some.injEq]
  split_ifs <;> rfl

/-- What is to the left of the scan is not touched. -/
theorem scanParts_append (front : List JSString) (last : JSString) (back : List JSString) (up : ℕ) :
    scanParts front.length (front ++ last :: back, up) =
      (front ++ [last]).foldr normalizeStep (back, up) := by
  induction front using List.reverseRecOn generalizing last back up with
  | nil => exact scanRound_append [] last back up
  | append_singleton front next ih =>
    have hround := scanRound_append (front ++ [next]) last back up
    rw [List.length_append, List.length_singleton] at hround ⊢
    rw [scanParts, hround, List.append_assoc, List.singleton_append, ih, List.foldr_append,
      List.foldr_append, List.foldr_append]
    rfl

theorem scanParts_eq (parts : List JSString) :
    scanParts parts.length (parts, 0) = normal parts := by
  rcases parts.eq_nil_or_concat with rfl | ⟨front, last, rfl⟩
  · rfl
  · -- there is no part at the index that the loop begins with
    have hfirst : scanRound (front.length + 1) (front ++ [last], 0) = (front ++ [last], 0) := by
      simp [scanRound]
    rw [List.concat_eq_append, List.length_append, List.length_singleton, scanParts, hfirst,
      scanParts_append]
    rfl

theorem restoreParts_eq (up : ℕ) (parts : List JSString) :
    restoreParts up parts = List.replicate up (js "..") ++ parts := by
  induction up generalizing parts with
  | zero => rfl
  | succ up ih =>
    rw [restoreParts, ih, List.replicate_succ', List.append_assoc]
    rfl

theorem normalizeInPlace_eq (parts : List JSString) (allowAboveRoot : Bool) :
    normalizeInPlace parts allowAboveRoot = normalizeArray parts allowAboveRoot := by
  unfold normalizeInPlace normalizeArray
  rw [scanParts_eq]
  dsimp only [normal]
  rw [restoreParts_eq]

/-! ### The stack -/

/-- What a part does to the stack, the top of which is its head. -/
def stackStep (allowAboveRoot : Bool) (stack : List JSString) (part : JSString) : List JSString :=
  if part = js "." then stack
  else if part = js ".." then
    match stack with
    | [] => if allowAboveRoot then [js ".."] else []
    | top :: below =>
      if top = js ".." then if allowAboveRoot then js ".." :: stack else stack else below
  else part :: stack

/-- The parts that the stack holds in the end, from the bottom on. -/
def stackResolve (parts : List JSString) (allowAboveRoot : Bool) : List JSString :=
  (parts.foldl (stackStep allowAboveRoot) []).reverse

section
variable {allowAboveRoot : Bool} {names : List JSString}

@[simp] theorem stackStep_dot (stack : List JSString) :
    stackStep allowAboveRoot stack (js ".") = stack := if_pos rfl

theorem stackStep_name {part : JSString} (hdot : part ≠ js ".") (hdots : part ≠ js "..")
    (stack : List JSString) : stackStep allowAboveRoot stack part = part :: stack := by
  unfold stackStep
  rw [if_neg hdot, if_neg hdots]

theorem stackStep_dots_cons {top : JSString} (htop : top ≠ js "..") (below : List JSString) :
    stackStep allowAboveRoot (top :: below) (js "..") = below := by
  unfold stackStep
  rw [if_neg (by decide), if_pos rfl]
  exact if_neg htop

/-- With no name left to pop. -/
theorem stackStep_dots_replicate (k : ℕ) (hk : allowAboveRoot = false → k = 0) :
    stackStep allowAboveRoot (List.replicate k (js "..")) (js "..") =
      List.replicate (k + if allowAboveRoot then 1 else 0) (js "..") := by
  unfold stackStep
  rw [if_neg (by decide), if_pos rfl]
  cases allowAboveRoot with
  | false =>
    obtain rfl := hk rfl
    rfl
  | true =>
    cases k with
    | zero => rfl
    | succ k => rfl

/-- The names that are popped, and those that are pushed, on a stack of `names` above `k` times
`..`. -/
theorem foldl_stackStep (parts : List JSString) (hnames : ∀ c ∈ names, c ≠ js "..") (k : ℕ)
    (hk : allowAboveRoot = false → k = 0) :
    parts.foldl (stackStep allowAboveRoot) (names ++ List.replicate k (js "..")) =
      (normal parts).1.reverse ++ names.drop (normal parts).2 ++
        List.replicate (k + if allowAboveRoot then (normal parts).2 - names.length else 0)
          (js "..") := by
  induction parts generalizing names k with
  | nil => simp [normal]
  | cons part parts ih =>
    rw [List.foldl_cons, normal_cons]
    by_cases hdot : part = js "."
    · rw [hdot, stackStep_dot, ih hnames k hk, normalizeStep, if_pos rfl]
    by_cases hdots : part = js ".."
    · subst hdots
      rw [normalizeStep, if_neg hdot, if_pos rfl]
      cases names with
      | nil =>
        have hk' : allowAboveRoot = false → (k + if allowAboveRoot then 1 else 0) = 0 := by
          rintro rfl
          exact hk rfl
        rw [List.nil_append, stackStep_dots_replicate k hk]
        have ih := @ih [] (by simp) _ hk'
        rw [List.nil_append] at ih
        rw [ih]
        cases allowAboveRoot with
        | false => simp
        | true => simp [Nat.add_assoc, Nat.add_comm 1]
      | cons top below =>
        rw [List.cons_append, stackStep_dots_cons (hnames top List.mem_cons_self),
          ih (fun c hc => hnames c (List.mem_cons_of_mem _ hc)) k hk]
        simp
    · rw [stackStep_name hdot hdots, ← List.cons_append,
        ih (List.forall_mem_cons.mpr ⟨hdots, hnames⟩) k hk, normalizeStep, if_neg hdot,
        if_neg hdots]
      generalize normal parts = rest
      obtain ⟨kept, up⟩ := rest
      cases up with
      | zero => simp
      | succ up => simp

end

/-- The scan from the right leaves what the stack has. -/
theorem normalizeInPlace_eq_stackResolve (parts : List JSString) (allowAboveRoot : Bool) :
    normalizeInPlace parts allowAboveRoot = stackResolve parts allowAboveRoot := by
  have hfold := @foldl_stackStep allowAboveRoot [] parts (by simp) 0 fun _ => rfl
  rw [List.replicate_zero, List.append_nil] at hfold
  rw [normalizeInPlace_eq, stackResolve, hfold, normalizeArray]
  cases allowAboveRoot with
  | false => simp [normal]
  | true => simp [normal]

example : normalizeInPlace [js "..", js "a", js ".", js "..", js "..", js "b"] true =
    [js "..", js "..", js "b"] := by decide +kernel

end NodeJS.Path
