import NodeJS.Url.DotSegments
import NodeJS.Url.Resolve
import NodeJS.Path.Normalize

/-! The dot-handling of `urlResolveObject` against `remove_dot_segments`. -/
namespace NodeJS.Url
open NodeJS.Path (normal normalizeStep normal_cons scanParts_eq join normal_append_eq)

/-! ### Paths and their segments -/

section
variable {segments : List JSString}

/-- The parts of the path are an empty one and its segments. -/
theorem join_cons_nil (segments : List JSString) : join ([] :: segments) = pathOf segments := by
  unfold join
  by_cases hnil : segments = []
  · rw [hnil, List.intercalate_singleton]
    rfl
  · rw [List.intercalate_cons_of_ne_nil hnil, pathOf_eq hnil]
    rfl

theorem splitOn_pathOf (h : ∀ s ∈ segments, slash ∉ s) :
    (pathOf segments).splitOn slash = [] :: segments := by
  rw [← join_cons_nil]
  exact List.splitOn_intercalate slash
    (List.forall_mem_cons.mpr ⟨List.not_mem_nil, h⟩) (List.cons_ne_nil _ _)

theorem pathOf_injective {other : List JSString} (h : ∀ s ∈ segments, slash ∉ s)
    (hother : ∀ s ∈ other, slash ∉ s) : pathOf segments = pathOf other ↔ segments = other := by
  constructor
  · intro heq
    have hsplit := splitOn_pathOf h
    rw [heq, splitOn_pathOf hother] at hsplit
    exact (List.cons_eq_cons.mp hsplit).2.symm
  · rintro rfl
    rfl

/-- A path that begins with two slashes has an empty segment in front of others. -/
theorem slashes_prefix_iff (h : ∀ s ∈ segments, slash ∉ s) :
    [slash, slash] <+: pathOf segments ↔ ∃ next more, segments = [] :: next :: more := by
  constructor
  · rintro ⟨rest, hrest⟩
    cases segments with
    | nil => cases hrest
    | cons s segments =>
      rw [pathOf_cons] at hrest
      have hnext := (List.cons_eq_cons.mp hrest).2
      cases s with
      | cons c s =>
        obtain ⟨rfl, -⟩ := List.cons_eq_cons.mp hnext
        exact absurd List.mem_cons_self (h _ List.mem_cons_self)
      | nil =>
        cases segments with
        | nil => cases hnext
        | cons next more => exact ⟨next, more, rfl⟩
  · rintro ⟨next, more, rfl⟩
    exact ⟨next ++ pathOf more, rfl⟩

/-- A path that ends with a slash has an empty segment at its end. -/
theorem getLast_pathOf (h : ∀ s ∈ segments, slash ∉ s) :
    (pathOf segments).getLast? = some slash ↔ segments.getLast? = some [] := by
  rcases segments.eq_nil_or_concat with rfl | ⟨front, s, rfl⟩
  · exact iff_of_false nofun nofun
  · rw [List.concat_eq_append] at h ⊢
    have hs := h s (by simp)
    have hpath : pathOf (front ++ [s]) = pathOf front ++ slash :: s := by
      rw [pathOf_append, pathOf_cons]
      exact congrArg (pathOf front ++ slash :: ·) (List.append_nil s)
    rw [hpath, List.getLast?_concat, Option.some.injEq]
    rcases s.eq_nil_or_concat with rfl | ⟨s, c, rfl⟩
    · exact iff_of_true List.getLast?_concat rfl
    · rw [List.concat_eq_append] at hs ⊢
      refine iff_of_false (fun hlast => hs ?_) (by simp)
      rw [← List.cons_append, ← List.append_assoc, List.getLast?_concat] at hlast
      rw [Option.some.inj hlast]
      simp

/-- A path that ends with two slashes, of segments the last of which is empty. -/
theorem slashes_suffix_iff (h : ∀ s ∈ segments, slash ∉ s) :
    [slash, slash] <:+ pathOf (segments ++ [[]]) ↔ segments.getLast? = some [] := by
  have hpath : pathOf (segments ++ [[]]) = pathOf segments ++ [slash] := pathOf_append _ _
  rw [hpath, ← getLast_pathOf h, ← List.singleton_append, List.suffix_append_self_iff,
    List.singleton_suffix_iff_getLast?_eq_some]

end

/-! ### What the scan leaves -/

def isName (s : JSString) : Bool := s != js "." && s != js ".."

/-- A `..` finds no segment to remove: up to it there are more of them than of names. -/
def Climbs (segments : List JSString) : Prop :=
  ∃ front, front <+: segments ∧ front.countP isName < front.count (js "..")

def EndsInDots (segments : List JSString) : Prop :=
  segments.getLast? = some (js ".") ∨ segments.getLast? = some (js "..")

instance (segments : List JSString) : Decidable (EndsInDots segments) :=
  inferInstanceAs (Decidable (_ ∨ _))

theorem surplus_iff (segments : List JSString) (k : ℕ) :
    (∃ front, front <+: segments ∧ front.countP isName + k < front.count (js "..")) ↔
      k < (normal segments).2 := by
  induction segments generalizing k with
  | nil =>
    have hnone : (normal []).2 = 0 := rfl
    rw [hnone]
    simp
  | cons s segments ih =>
    -- a front is empty or begins with the first segment
    have hfront : (∃ front, front <+: s :: segments ∧
        front.countP isName + k < front.count (js "..")) ↔
        ∃ front, front <+: segments ∧
          (s :: front).countP isName + k < (s :: front).count (js "..") := by
      constructor
      · rintro ⟨front, hprefix, hlt⟩
        rcases List.prefix_cons_iff.mp hprefix with rfl | ⟨more, rfl, hmore⟩
        · exact absurd hlt (Nat.not_lt_zero _)
        · exact ⟨more, hmore, hlt⟩
      · rintro ⟨front, hprefix, hlt⟩
        exact ⟨s :: front, List.cons_prefix_cons.mpr ⟨rfl, hprefix⟩, hlt⟩
    rw [hfront, normal_cons, normalizeStep]
    by_cases hdot : s = js "."
    · subst hdot
      have hcount : ∀ front : List JSString, (js "." :: front).countP isName =
          front.countP isName ∧ (js "." :: front).count (js "..") = front.count (js "..") :=
        fun front => ⟨List.countP_cons_of_neg (by decide), List.count_cons_of_ne (by decide)⟩
      rw [if_pos rfl, ← ih]
      simp only [hcount]
    rw [if_neg hdot]
    by_cases hdots : s = js ".."
    · subst hdots
      have hcount : ∀ front : List JSString, (js ".." :: front).countP isName =
          front.countP isName ∧ (js ".." :: front).count (js "..") = front.count (js "..") + 1 :=
        fun front => ⟨List.countP_cons_of_neg (by decide), List.count_cons_self⟩
      rw [if_pos rfl]
      simp only [hcount]
      cases k with
      | zero =>
        refine iff_of_true ⟨[], List.nil_prefix, Nat.zero_lt_one⟩ (Nat.succ_pos _)
      | succ k =>
        rw [Nat.succ_lt_succ_iff, ← ih]
        simp only [← Nat.add_assoc, Nat.succ_lt_succ_iff]
    · have hcount : ∀ front : List JSString, (s :: front).countP isName =
          front.countP isName + 1 ∧ (s :: front).count (js "..") = front.count (js "..") :=
        fun front => ⟨List.countP_cons_of_pos (by simp [isName, hdot, hdots]),
          List.count_cons_of_ne (fun h => hdots h)⟩
      have hih := ih (k + 1)
      rw [Nat.add_comm k 1] at hih
      rw [if_neg hdots]
      simp only [hcount, Nat.add_assoc, hih]
      split_ifs with hup
      · dsimp only
        omega
      · rw [not_not.mp hup]
        omega

theorem climbs_iff (segments : List JSString) : Climbs segments ↔ (normal segments).2 ≠ 0 := by
  rw [← Nat.pos_iff_ne_zero, ← surplus_iff]
  rfl

theorem mem_of_mem_normal {segments : List JSString} :
    ∀ s ∈ (normal segments).1, s ∈ segments := by
  induction segments with
  | nil => exact fun s hs => hs
  | cons first segments ih =>
    rw [normal_cons, normalizeStep]
    split_ifs
    · exact fun s hs => List.mem_cons_of_mem _ (ih s hs)
    · exact fun s hs => List.mem_cons_of_mem _ (ih s hs)
    · exact fun s hs => List.mem_cons_of_mem _ (ih s hs)
    · intro s hs
      rcases List.mem_cons.mp hs with rfl | hs
      · exact List.mem_cons_self
      · exact List.mem_cons_of_mem _ (ih s hs)

/-- A last segment that is no dot segment is left. -/
theorem getLast_normal {segments : List JSString} {s : JSString} (hlast : segments.getLast? = some s)
    (hdots : ¬ EndsInDots segments) : (normal segments).1.getLast? = some s := by
  obtain ⟨front, rfl⟩ := List.getLast?_eq_some_iff.mp hlast
  have hne : s ≠ js "." ∧ s ≠ js ".." := by
    constructor
    · rintro rfl
      exact hdots (.inl hlast)
    · rintro rfl
      exact hdots (.inr hlast)
  have hnormal : normal [s] = ([s], 0) := by
    rw [normal_cons, normalizeStep, if_neg hne.1, if_neg hne.2]
    rfl
  rw [normal_append_eq, hnormal, List.getLast?_concat]

theorem trail_of_dots {segments : List JSString} (h : EndsInDots segments) : trail segments = [[]] :=
  if_pos h

theorem trail_of_not {segments : List JSString} (h : ¬ EndsInDots segments) :
    trail segments = [] := if_neg h

/-! ### The scan and the RFC -/

/-- The segments in front of which the code puts the root: an empty one is taken for it if a `..` has
removed the root. -/
def rootedSegments (segments : List JSString) : List JSString :=
  if (normal segments).2 ≠ 0 ∧ (normal segments).1.head? = some [] then (normal segments).1.tail
  else (normal segments).1

section
variable {segments : List JSString} (hslash : ∀ s ∈ segments, slash ∉ s)
include hslash

theorem slash_not_mem_rooted : ∀ s ∈ rootedSegments segments, slash ∉ s := by
  intro s hs
  refine hslash s (mem_of_mem_normal s ?_)
  unfold rootedSegments at hs
  split_ifs at hs
  · exact List.mem_of_mem_tail hs
  · exact hs

/-- What `urlResolveObject` makes of the parts of a path that begins with a slash. -/
theorem join_resolveDots (hasTrailingSlash : Bool) :
    join (resolveDots ([] :: segments) true true hasTrailingSlash) =
      pathOf (rootedSegments segments ++
        if hasTrailingSlash = true ∧ (rootedSegments segments).getLast? ≠ some [] then [[]]
        else []) ∧
      startsAbsolute (resolveDots ([] :: segments) true true hasTrailingSlash) = true := by
  have hroot : ([] : JSString) ≠ js "." ∧ ([] : JSString) ≠ js ".." := by decide
  have hscan : (if (!startsAbsolute (normal ([] :: segments)).1) = true then
      [] :: (normal ([] :: segments)).1 else (normal ([] :: segments)).1) =
        [] :: rootedSegments segments := by
    have hnames := fun s hs => hslash s (mem_of_mem_normal s hs)
    rw [normal_cons, normalizeStep, if_neg hroot.1, if_neg hroot.2, rootedSegments]
    generalize normal segments = rest at hnames ⊢
    obtain ⟨kept, up⟩ := rest
    cases up with
    | zero => rfl
    | succ up =>
      rw [if_pos (Nat.succ_ne_zero up)]
      cases kept with
      | nil => rfl
      | cons s kept =>
        cases s with
        | nil => rfl
        | cons c s =>
          have hc : c ≠ slash := by
            rintro rfl
            exact hnames _ List.mem_cons_self List.mem_cons_self
          simp [startsAbsolute, hc]
  have hlast := getLast_pathOf (slash_not_mem_rooted hslash)
  unfold resolveDots
  rw [scanParts_eq]
  simp only [Bool.not_true, Bool.and_self, Bool.false_eq_true, if_false, Bool.true_and, hscan,
    join_cons_nil]
  by_cases hpush : hasTrailingSlash = true ∧ (rootedSegments segments).getLast? ≠ some []
  · rw [if_pos hpush, if_pos (by simpa [hlast] using hpush), List.cons_append, join_cons_nil]
    exact ⟨rfl, rfl⟩
  · rw [if_neg hpush, if_neg (by simpa [hlast] using hpush), List.append_nil, join_cons_nil]
    exact ⟨rfl, rfl⟩

end

section
variable {kept : List JSString} {up : ℕ}

theorem ne_root (hroot : ¬ (up ≠ 0 ∧ kept.head? = some [])) (more : List JSString)
    {next : JSString} {rest : List JSString} (hup : up ≠ 0) :
    kept ++ more ≠ [] :: next :: rest ∨ kept = [] := by
  cases kept with
  | nil => exact .inr rfl
  | cons k kept =>
    refine .inl fun heq => hroot ⟨hup, ?_⟩
    rw [(List.cons_eq_cons.mp heq).1]
    rfl

/-- Behind dots the RFC leaves a slash, and the code adds one if there is none. -/
theorem rooted_dots_iff (kept : List JSString) (up : ℕ) :
    ((if up ≠ 0 ∧ kept.head? = some [] then kept.tail else kept) ++
        if (if up ≠ 0 ∧ kept.head? = some [] then kept.tail else kept).getLast? ≠ some [] then [[]]
        else []) = kept ++ [[]] ↔
      ¬ kept.getLast? = some [] ∧
        ¬ (up ≠ 0 ∧ ∃ next more, kept ++ [[]] = [] :: next :: more) := by
  by_cases hroot : up ≠ 0 ∧ kept.head? = some []
  · -- the root is missing, and at most one segment follows
    obtain ⟨more, rfl⟩ := List.head?_eq_some_iff.mp hroot.2
    rw [if_pos hroot]
    refine iff_of_false (fun heq => ?_) fun h => h.2 ⟨hroot.1, ?_⟩
    · have hlength := congrArg List.length heq
      rw [List.length_append, List.length_append, List.tail_cons, List.length_cons] at hlength
      split_ifs at hlength
      · rw [List.length_singleton] at hlength
        omega
      · rw [List.length_nil, List.length_singleton] at hlength
        omega
    · cases more with
      | nil => exact ⟨[], [], rfl⟩
      | cons next more => exact ⟨next, more ++ [[]], rfl⟩
  · rw [if_neg hroot]
    by_cases hempty : kept.getLast? = some []
    · refine iff_of_false (fun heq => ?_) fun h => h.1 hempty
      rw [if_neg fun h => h hempty, List.append_nil] at heq
      simp at heq
    · refine iff_of_true (by rw [if_pos hempty]) ⟨hempty, ?_⟩
      rintro ⟨hup, next, more, heq⟩
      rcases ne_root hroot [[]] hup with hne | rfl
      · exact hne heq
      · simp at heq

/-- Behind a name or a slash both leave what there is. -/
theorem rooted_last_iff {s : JSString} (hlast : kept.getLast? = some s) :
    ((if up ≠ 0 ∧ kept.head? = some [] then kept.tail else kept) ++
        if s = [] ∧ (if up ≠ 0 ∧ kept.head? = some [] then kept.tail else kept).getLast? ≠ some []
        then [[]] else []) = kept ↔
      ¬ (up ≠ 0 ∧ ∃ next more, kept = [] :: next :: more) := by
  have hno : ∀ l : List JSString, l.getLast? = some s → ¬ (s = [] ∧ l.getLast? ≠ some []) := by
    rintro l hl ⟨rfl, hne⟩
    exact hne hl
  by_cases hroot : up ≠ 0 ∧ kept.head? = some []
  · obtain ⟨more, rfl⟩ := List.head?_eq_some_iff.mp hroot.2
    rw [if_pos hroot, List.tail_cons]
    cases more with
    | nil =>
      obtain rfl : [] = s := Option.some.inj hlast
      refine iff_of_true ?_ ?_
      · rw [if_pos ⟨rfl, nofun⟩]
        rfl
      · rintro ⟨-, next, more, heq⟩
        cases heq
    | cons next more =>
      rw [List.getLast?_cons_cons] at hlast
      refine iff_of_false (fun heq => ?_) fun h => h ⟨hroot.1, next, more, rfl⟩
      rw [if_neg (hno _ hlast), List.append_nil] at heq
      have hlength := congrArg List.length heq
      simp only [List.length_cons] at hlength
      omega
  · rw [if_neg hroot]
    refine iff_of_true ?_ ?_
    · rw [if_neg (hno kept hlast), List.append_nil]
    · rintro ⟨hup, next, more, heq⟩
      rcases ne_root hroot [] hup with hne | rfl
      · exact hne (by rw [List.append_nil]; exact heq)
      · cases heq

end

/-- When the code leaves the same segments as the RFC. -/
theorem rooted_eq_iff {segments : List JSString} (hne : segments ≠ []) :
    (rootedSegments segments ++
        if (EndsInDots segments ∨ segments.getLast? = some []) ∧
          (rootedSegments segments).getLast? ≠ some [] then [[]] else []) =
      (normal segments).1 ++ trail segments ↔
      ¬ (EndsInDots segments ∧ (normal segments).1.getLast? = some []) ∧
        ¬ (Climbs segments ∧ ∃ next more,
          (normal segments).1 ++ trail segments = [] :: next :: more) := by
  obtain ⟨s, hlast⟩ : ∃ s, segments.getLast? = some s :=
    ⟨_, List.getLast?_eq_some_getLast hne⟩
  rw [climbs_iff]
  unfold rootedSegments
  by_cases hdots : EndsInDots segments
  · rw [trail_of_dots hdots]
    simp only [hdots, true_or, true_and]
    exact rooted_dots_iff _ _
  · have hkept := getLast_normal hlast hdots
    rw [trail_of_not hdots, List.append_nil, hlast]
    simp only [hdots, false_or, false_and, not_false_eq_true, true_and, Option.some.injEq]
    exact rooted_last_iff hkept

def endsInSlash (segments : List JSString) : Bool :=
  decide (EndsInDots segments ∨ segments.getLast? = some [])

/-- The path that the code leaves of some segments behind the root. -/
def handledPath (segments : List JSString) : JSString :=
  join (resolveDots ([] :: segments) true true (endsInSlash segments))

/-- Where an empty segment makes a difference: at the end of what a dot segment ends, and at the
beginning of what a `..` leaves that goes above the root. -/
def LosesEmpty (segments : List JSString) : Prop :=
  EndsInDots segments ∧ [slash, slash] <:+ removeDotSegments (pathOf segments) ∨
    Climbs segments ∧ [slash, slash] <+: removeDotSegments (pathOf segments)

section
variable {segments : List JSString} (hslash : ∀ s ∈ segments, slash ∉ s)
include hslash

theorem slash_not_mem_normal : ∀ s ∈ (normal segments).1, slash ∉ s :=
  fun s hs => hslash s (mem_of_mem_normal s hs)

theorem slash_not_mem_trail : ∀ s ∈ (normal segments).1 ++ trail segments, slash ∉ s := by
  refine List.forall_mem_append.mpr ⟨slash_not_mem_normal hslash, ?_⟩
  unfold trail
  split_ifs
  · exact List.forall_mem_singleton.mpr List.not_mem_nil
  · exact List.forall_mem_nil _

theorem handledPath_eq : handledPath segments = pathOf (rootedSegments segments ++
    if (EndsInDots segments ∨ segments.getLast? = some []) ∧
      (rootedSegments segments).getLast? ≠ some [] then [[]] else []) := by
  rw [handledPath, (join_resolveDots hslash _).1]
  simp only [endsInSlash, decide_eq_true_eq]

/-- The scan from the right leaves the path that the RFC has, unless it loses an empty segment. -/
theorem handledPath_iff (hne : segments ≠ []) :
    handledPath segments = removeDotSegments (pathOf segments) ↔ ¬ LosesEmpty segments := by
  have hrooted : ∀ s ∈ rootedSegments segments ++
      if (EndsInDots segments ∨ segments.getLast? = some []) ∧
        (rootedSegments segments).getLast? ≠ some [] then [[]] else [], slash ∉ s := by
    refine List.forall_mem_append.mpr ⟨slash_not_mem_rooted hslash, ?_⟩
    split_ifs
    · exact List.forall_mem_singleton.mpr List.not_mem_nil
    · exact List.forall_mem_nil _
  have hsuffix : EndsInDots segments →
      ([slash, slash] <:+ removeDotSegments (pathOf segments) ↔
        (normal segments).1.getLast? = some []) := by
    intro hdots
    rw [removeDotSegments_pathOf hslash, trail_of_dots hdots,
      slashes_suffix_iff (slash_not_mem_normal hslash)]
  rw [handledPath_eq hslash, LosesEmpty, not_or, and_congr_right_iff.mpr hsuffix,
    removeDotSegments_pathOf hslash, pathOf_injective hrooted (slash_not_mem_trail hslash),
    slashes_prefix_iff (slash_not_mem_trail hslash)]
  exact rooted_eq_iff hne

end

end NodeJS.Url
