import NodeJS.Path.Stack
import NodeJS.Url.Parse

/-! The paths of relative references by RFC 3986, and what is left of their segments. -/
namespace NodeJS.Url
open NodeJS.Path (normal normalizeStep normal_cons)

/-! ### The algorithms of the RFC -/

/-- `merge` of a base that has an authority: all but the last segment of its path. -/
def merge (basePath refPath : JSString) : JSString :=
  if basePath = [] then slash :: refPath
  else basePath.rdropWhile (· != slash) ++ refPath

/-- The output buffer without its last segment and the slash before it. -/
def dropSegment (output : JSString) : JSString := (output.rdropWhile (· != slash)).dropLast

/-- The body of the loop of `remove_dot_segments`, for an input and an output buffer. -/
def removeStep (input output : JSString) : JSString × JSString :=
  if (js "../").isPrefixOf input then (input.drop 3, output)
  else if (js "./").isPrefixOf input then (input.drop 2, output)
  else if (js "/./").isPrefixOf input then (input.drop 2, output)
  else if input = js "/." then ([slash], output)
  else if (js "/../").isPrefixOf input then (input.drop 3, dropSegment output)
  else if input = js "/.." then ([slash], dropSegment output)
  else if input = js "." ∨ input = js ".." then ([], output)
  else
    -- the first segment, with the slash in front of it if there is one
    let segment := input.take 1 ++ (input.drop 1).takeWhile (· != slash)
    (input.drop segment.length, output ++ segment)

def removeLoop : ℕ → JSString → JSString → JSString
  | 0, _, output => output
  | n + 1, input, output =>
    if input = [] then output
    else removeLoop n (removeStep input output).1 (removeStep input output).2

/-- Every round makes the input shorter, so that its length is enough of them. -/
def removeFrom (input output : JSString) : JSString := removeLoop input.length input output

def removeDotSegments (path : JSString) : JSString := removeFrom path []

/-- The path of a reference that has nothing but a path, put together with that of its base. -/
def mergedPath (basePath refPath : JSString) : JSString :=
  if refPath.head? = some slash then refPath else merge basePath refPath

def transformPath (basePath refPath : JSString) : JSString :=
  removeDotSegments (mergedPath basePath refPath)

theorem length_removeStep {input : JSString} (h : input ≠ []) (output : JSString) :
    (removeStep input output).1.length < input.length := by
  have hpos := List.length_pos_of_ne_nil h
  unfold removeStep
  dsimp only
  split_ifs with h₁ h₂ h₃ h₄ h₅ h₆ h₇
  · rw [List.length_drop]
    omega
  · rw [List.length_drop]
    omega
  · rw [List.length_drop]
    omega
  · rw [h₄]
    exact Nat.lt_succ_self 1
  · rw [List.length_drop]
    omega
  · rw [h₆]
    exact Nat.lt_of_lt_of_le (Nat.lt_succ_self 1) (Nat.le_succ 2)
  · exact hpos
  · rw [List.length_drop, List.length_append, List.length_take]
    omega

theorem removeLoop_fuel {n m : ℕ} {input : JSString} (hn : input.length ≤ n)
    (hm : input.length ≤ m) (output : JSString) :
    removeLoop n input output = removeLoop m input output := by
  induction n generalizing m input output with
  | zero =>
    obtain rfl := List.length_eq_zero_iff.mp (Nat.le_zero.mp hn)
    cases m <;> rfl
  | succ n ih =>
    by_cases hnil : input = []
    · rw [hnil]
      cases m <;> rfl
    · have hshort := length_removeStep hnil output
      cases m with
      | zero => exact absurd (List.length_eq_zero_iff.mp (Nat.le_zero.mp hm)) hnil
      | succ m =>
        rw [removeLoop, removeLoop, if_neg hnil, if_neg hnil]
        exact ih (by omega) (by omega) _

theorem removeFrom_step {input : JSString} (h : input ≠ []) (output : JSString) :
    removeFrom input output = removeFrom (removeStep input output).1 (removeStep input output).2 := by
  have hshort := length_removeStep h output
  obtain ⟨n, hn⟩ := Nat.exists_eq_succ_of_ne_zero (Nat.ne_of_gt (List.length_pos_of_ne_nil h))
  unfold removeFrom
  rw [hn, removeLoop, if_neg h]
  exact removeLoop_fuel (by omega) (Nat.le_refl _) _

/-! ### Segments -/

def pathOf (segments : List JSString) : JSString := segments.flatMap (slash :: ·)

/-- The segment that stands for a dot segment at the end. -/
def trail (segments : List JSString) : List JSString :=
  if segments.getLast? = some (js ".") ∨ segments.getLast? = some (js "..") then [[]] else []

section
variable {s : JSString} {segments : List JSString}

theorem pathOf_cons (s : JSString) (segments : List JSString) :
    pathOf (s :: segments) = slash :: (s ++ pathOf segments) := rfl

theorem pathOf_append (front back : List JSString) :
    pathOf (front ++ back) = pathOf front ++ pathOf back := List.flatMap_append

theorem pathOf_eq (h : segments ≠ []) :
    pathOf segments = slash :: [slash].intercalate segments := by
  induction segments with
  | nil => exact absurd rfl h
  | cons s segments ih =>
    rw [pathOf_cons]
    by_cases hnil : segments = []
    · rw [hnil, List.intercalate_singleton]
      exact congrArg (slash :: ·) (List.append_nil s)
    · rw [ih hnil, List.intercalate_cons_of_ne_nil hnil, List.append_assoc]
      rfl

/-- The first segment ends at the next slash. -/
theorem takeWhile_segment (h : slash ∉ s) (segments : List JSString) :
    (s ++ pathOf segments).takeWhile (· != slash) = s := by
  have hall : ∀ c ∈ s, (c != slash) = true := by
    intro c hc
    refine bne_iff_ne.mpr ?_
    rintro rfl
    exact h hc
  rw [List.takeWhile_append_of_pos hall]
  cases segments with
  | nil => exact List.append_nil s
  | cons next segments =>
    rw [pathOf_cons, List.takeWhile_cons_of_neg (by decide), List.append_nil]

theorem dropSegment_pathOf (h : slash ∉ s) (segments : List JSString) :
    dropSegment (pathOf (segments ++ [s])) = pathOf segments := by
  have hall : ∀ c ∈ s.reverse, (c != slash) = true := by
    intro c hc
    refine bne_iff_ne.mpr ?_
    rintro rfl
    exact h (List.mem_reverse.mp hc)
  have hpath : pathOf (segments ++ [s]) = pathOf segments ++ [slash] ++ s := by
    rw [pathOf_append, pathOf_cons, List.append_assoc]
    exact congrArg (pathOf segments ++ slash :: ·) (List.append_nil s)
  have hdrop : (pathOf segments ++ [slash] ++ s).rdropWhile (· != slash) =
      pathOf segments ++ [slash] := by
    rw [List.rdropWhile, List.reverse_append, List.dropWhile_append_of_pos hall,
      List.reverse_append, List.reverse_singleton, List.singleton_append,
      List.dropWhile_cons_of_neg (by decide), List.reverse_cons, List.reverse_reverse]
  rw [dropSegment, hpath, hdrop, List.dropLast_concat]

theorem removeStep_dot (next : JSString) (segments : List JSString) (output : JSString) :
    removeStep (pathOf (js "." :: next :: segments)) output =
      (pathOf (next :: segments), output) := rfl

theorem removeStep_dot_last (output : JSString) :
    removeStep (pathOf [js "."]) output = ([slash], output) := rfl

theorem removeStep_dots (next : JSString) (segments : List JSString) (output : JSString) :
    removeStep (pathOf (js ".." :: next :: segments)) output =
      (pathOf (next :: segments), dropSegment output) := rfl

theorem removeStep_dots_last (output : JSString) :
    removeStep (pathOf [js ".."]) output = ([slash], dropSegment output) := rfl

theorem removeStep_name (h : slash ∉ s) (hdot : s ≠ js ".") (hdots : s ≠ js "..")
    (segments : List JSString) (output : JSString) :
    removeStep (pathOf (s :: segments)) output =
      (pathOf segments, output ++ slash :: s) := by
  have htake := takeWhile_segment h segments
  have hprefix : ∀ x : JSString, (js "/" ++ x).isPrefixOf (slash :: (s ++ pathOf segments)) = true →
      ∃ v, s ++ pathOf segments = x ++ v := by
    intro x hx
    obtain ⟨v, hv⟩ := List.isPrefixOf_iff_prefix.mp hx
    exact ⟨v, (List.cons_eq_cons.mp hv).2.symm⟩
  -- a text that begins like a dot segment has it as its first segment
  have h₁ : ¬ (js "/./").isPrefixOf (slash :: (s ++ pathOf segments)) = true := fun hx => by
    obtain ⟨v, hv⟩ := hprefix (js "./") hx
    rw [hv] at htake
    exact hdot htake.symm
  have h₂ : ¬ slash :: (s ++ pathOf segments) = js "/." := fun hx => by
    rw [(List.cons_eq_cons.mp hx).2] at htake
    exact hdot htake.symm
  have h₃ : ¬ (js "/../").isPrefixOf (slash :: (s ++ pathOf segments)) = true := fun hx => by
    obtain ⟨v, hv⟩ := hprefix (js "../") hx
    rw [hv] at htake
    exact hdots htake.symm
  have h₄ : ¬ slash :: (s ++ pathOf segments) = js "/.." := fun hx => by
    rw [(List.cons_eq_cons.mp hx).2] at htake
    exact hdots htake.symm
  have h₅ : ¬ (slash :: (s ++ pathOf segments) = js "." ∨
      slash :: (s ++ pathOf segments) = js "..") := by
    rintro (hx | hx)
    · exact absurd (List.cons_eq_cons.mp hx).1 (by decide)
    · exact absurd (List.cons_eq_cons.mp hx).1 (by decide)
  have hsegment : (slash :: (s ++ pathOf segments)).take 1 ++
      ((slash :: (s ++ pathOf segments)).drop 1).takeWhile (· != slash) = slash :: s :=
    congrArg (slash :: ·) htake
  have hdots₀ : ∀ x : JSString, ¬ (js "../").isPrefixOf (slash :: x) = true := fun _ =>
    Bool.false_ne_true
  have hdot₀ : ∀ x : JSString, ¬ (js "./").isPrefixOf (slash :: x) = true := fun _ =>
    Bool.false_ne_true
  rw [pathOf_cons]
  unfold removeStep
  rw [if_neg (hdots₀ _), if_neg (hdot₀ _), if_neg h₁, if_neg h₂, if_neg h₃, if_neg h₄,
    if_neg h₅]
  dsimp only
  rw [hsegment, List.length_cons, List.drop_succ_cons, List.drop_left]

theorem trail_cons (h : segments ≠ []) (s : JSString) : trail (s :: segments) = trail segments := by
  unfold trail
  rw [List.getLast?_cons_of_ne_nil h]

end

theorem removeFrom_slash (output : JSString) : removeFrom [slash] output = output ++ [slash] := by
  have hpath : ([slash] : JSString) = pathOf [[]] := rfl
  have hstep := @removeStep_name [] List.not_mem_nil (by decide) (by decide) [] output
  rw [removeFrom_step (List.cons_ne_nil _ _), hpath, hstep]
  rfl

theorem dropSegment_dropLast {output : List JSString} (h : ∀ s ∈ output, slash ∉ s) :
    dropSegment (pathOf output) = pathOf output.dropLast := by
  rcases output.eq_nil_or_concat with rfl | ⟨front, s, rfl⟩
  · rfl
  · rw [List.concat_eq_append] at h ⊢
    rw [dropSegment_pathOf (h s (by simp)), List.dropLast_concat]

/-- The segments in front that are left, those that follow, and the one that stands for a dot
segment at the end. -/
theorem removeFrom_pathOf {segments output : List JSString} (h : ∀ s ∈ segments, slash ∉ s)
    (houtput : ∀ s ∈ output, slash ∉ s) :
    removeFrom (pathOf segments) (pathOf output) =
      pathOf (output.take (output.length - (normal segments).2) ++ (normal segments).1 ++
        trail segments) := by
  induction segments generalizing output with
  | nil =>
    have hnormal : normal [] = ([], 0) := rfl
    have htrail : trail [] = [] := rfl
    rw [hnormal, htrail, List.append_nil, List.append_nil, Nat.sub_zero, List.take_length]
    rfl
  | cons s segments ih =>
    obtain ⟨hs, hsegments⟩ := List.forall_mem_cons.mp h
    have hne : pathOf (s :: segments) ≠ [] := List.cons_ne_nil _ _
    have hslash : ∀ out : List JSString, pathOf out ++ [slash] = pathOf (out ++ [[]]) := fun out =>
      (pathOf_append out [[]]).symm
    rw [removeFrom_step hne, normal_cons, normalizeStep]
    by_cases hdot : s = js "."
    · subst hdot
      rw [if_pos rfl]
      cases segments with
      | nil =>
        rw [removeStep_dot_last, removeFrom_slash, hslash]
        simp [normal, trail]
      | cons next segments =>
        rw [removeStep_dot, ih hsegments houtput, trail_cons (List.cons_ne_nil _ _)]
    rw [if_neg hdot]
    by_cases hdots : s = js ".."
    · subst hdots
      have hdrop := dropSegment_dropLast houtput
      have htake : ∀ u, output.dropLast.take (output.dropLast.length - u) =
          output.take (output.length - (u + 1)) := by
        intro u
        rw [List.dropLast_eq_take, List.take_take, List.length_take]
        congr 1
        omega
      rw [if_pos rfl]
      cases segments with
      | nil =>
        rw [removeStep_dots_last, removeFrom_slash, hdrop, hslash]
        simp [normal, trail, List.dropLast_eq_take]
      | cons next segments =>
        rw [removeStep_dots, hdrop, ih hsegments fun s hs => houtput s (List.dropLast_subset _ hs),
          trail_cons (List.cons_ne_nil _ _), htake]
    · have happend : pathOf output ++ slash :: s = pathOf (output ++ [s]) := by
        rw [pathOf_append, pathOf_cons]
        exact congrArg (pathOf output ++ slash :: ·) (List.append_nil s).symm
      have htrail : trail (s :: segments) = trail segments := by
        cases segments with
        | nil => simp [trail, hdot, hdots]
        | cons next segments => exact trail_cons (List.cons_ne_nil _ _) s
      have hall : ∀ x ∈ output ++ [s], slash ∉ x :=
        List.forall_mem_append.mpr ⟨houtput, List.forall_mem_singleton.mpr hs⟩
      rw [if_neg hdots, removeStep_name hs hdot hdots, happend, ih hsegments hall, htrail]
      generalize normal segments = rest
      obtain ⟨kept, up⟩ := rest
      cases up with
      | zero =>
        rw [if_neg (not_not.mpr rfl), Nat.sub_zero, Nat.sub_zero, List.take_length,
          List.take_length, List.append_assoc output]
        rfl
      | succ up =>
        rw [if_pos (Nat.succ_ne_zero up)]
        dsimp only
        rw [List.length_append, List.length_singleton, Nat.add_sub_add_right, Nat.add_sub_cancel,
          List.take_append_of_le_length (Nat.sub_le _ _)]

theorem removeDotSegments_pathOf {segments : List JSString} (h : ∀ s ∈ segments, slash ∉ s) :
    removeDotSegments (pathOf segments) = pathOf ((normal segments).1 ++ trail segments) := by
  have hrun := @removeFrom_pathOf segments [] h (List.forall_mem_nil _)
  rwa [List.take_nil, List.nil_append] at hrun

end NodeJS.Url
