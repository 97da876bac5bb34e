import NodeJS.Fs.Path
import NodeJS.Lib.Regex
import Mathlib.Data.List.DropRight

/-! `splitPathRe`, and what `dirname`, `basename` and `extname` make of it. -/
namespace NodeJS.Path
open Lib Lib.Regex

abbrev dot : UInt16 := 0x2E

/-- `.` -/
def anyChar : Regex UInt16 := .cls fun c => !isLineTerminator c

/-- `(.+\/(?!$)|\/)?` -/
def dirPart : Regex UInt16 :=
  .opt (.group 1 (.alt (.seq (.plus true anyChar) (.seq (lit slash) (.notAhead .finish)))
    (lit slash)))

/-- `(?:.+?)?` -/
def stemPart : Regex UInt16 := .opt (.plus false anyChar)

/-- `(\.[^.]*)?` -/
def extPart : Regex UInt16 := .opt (.group 3 (.seq (lit dot) (.star true (.cls (· != dot)))))

/-- `/^(.+\/(?!$)|\/)?((?:.+?)?(\.[^.]*)?)$/` -/
def splitPathRe : Regex UInt16 :=
  .seq .start (.seq dirPart (.seq (.group 2 (.seq stemPart extPart)) .finish))

/-- The groups of `splitPathRe.exec(path)`, unless that is `null`. -/
def splitPath (path : JSString) : Option (ℕ → Option JSString) :=
  (splitPathRe.exec 0 path).map fun found => found.2.groups

/-- `none` for the `TypeError` of `null[1]`. -/
def dirname (path : JSString) : Option JSString := do
  let groups ← splitPath path
  let dir := (groups 1).getD []
  if dir = [] then some (js ".")
  else if dir.length = 1 then some dir
  else some (dir.take (dir.length - 1))

/-- An `ext` that is left out is empty here. -/
def basename (path ext : JSString) : Option JSString := do
  let groups ← splitPath path
  let f := (groups 2).getD []
  if ext ≠ [] ∧ f.drop (f.length - ext.length) = ext then some (f.take (f.length - ext.length))
  else some f

def extname (path : JSString) : Option JSString := do
  let groups ← splitPath path
  some ((groups 3).getD [])

/-! ### The direct split -/

/-- Up to the last slash that is not the last character, or else the slash in front. -/
def dirOf (path : JSString) : JSString :=
  let dir := path.dropLast.rdropWhile (· != slash)
  if dir ≠ [] then dir else if path.head? = some slash then [slash] else []

def baseOf (path : JSString) : JSString := path.drop (dirOf path).length

/-- From the last dot on, if it is not in front. -/
def extOf (base : JSString) : JSString :=
  let n := (base.rdropWhile (· != dot)).length
  if 2 ≤ n then base.drop (n - 1) else []

theorem last_of_mem {c : UInt16} {s : JSString} (h : c ∈ s) :
    ∃ x y, s = x ++ c :: y ∧ c ∉ y := by
  obtain ⟨y, x, hs, hy⟩ := List.eq_append_cons_of_mem (List.mem_reverse.mpr h)
  refine ⟨x.reverse, y.reverse, ?_, fun hmem => hy (List.mem_reverse.mp hmem)⟩
  have hs := congrArg List.reverse hs
  rw [List.reverse_reverse, List.reverse_append, List.reverse_cons, List.append_assoc] at hs
  exact hs

theorem rdropWhile_last {c : UInt16} (x : JSString) {y : JSString} (hy : c ∉ y) :
    (x ++ c :: y).rdropWhile (· != c) = x ++ [c] := by
  induction y using List.reverseRecOn with
  | nil => exact List.rdropWhile_concat_neg _ _ _ (by simp)
  | append_singleton y d ih =>
    have hd : d ≠ c := fun h => hy (by simp [h])
    have hassoc : x ++ c :: (y ++ [d]) = (x ++ c :: y) ++ [d] := by simp
    rw [hassoc, List.rdropWhile_concat_pos _ _ _ (by simpa using hd)]
    exact ih fun hmem => hy (List.mem_append_left _ hmem)

theorem rdropWhile_none {c : UInt16} {s : JSString} (h : c ∉ s) : s.rdropWhile (· != c) = [] := by
  rw [List.rdropWhile_eq_nil_iff]
  exact fun d hd => by simpa using fun heq : d = c => h (heq ▸ hd)

/-- A slash that is neither in front nor at the end; only one in front; none. -/
theorem dirOf_cases (path : JSString) :
    (∃ x y, path = x ++ slash :: y ∧ x ≠ [] ∧ y ≠ [] ∧ slash ∉ y.dropLast ∧
      dirOf path = x ++ [slash]) ∨
    (∃ y, path = slash :: y ∧ slash ∉ y.dropLast ∧ dirOf path = [slash]) ∨
    (path.head? ≠ some slash ∧ slash ∉ path.dropLast ∧ dirOf path = []) := by
  unfold dirOf
  by_cases hmem : slash ∈ path.dropLast
  · obtain ⟨x, y, hsplit, hy⟩ := last_of_mem hmem
    have hne : path ≠ [] := by
      rintro rfl
      cases hmem
    have hpath : path = x ++ slash :: (y ++ [path.getLast hne]) := by
      conv_lhs => rw [← List.dropLast_append_getLast hne, hsplit]
      rw [List.append_assoc, List.cons_append]
    have hlast : slash ∉ (y ++ [path.getLast hne]).dropLast := by rwa [List.dropLast_concat]
    rw [hsplit, rdropWhile_last x hy]
    dsimp only
    rw [if_pos (by simp)]
    cases x with
    | nil => exact .inr (.inl ⟨_, hpath, hlast, rfl⟩)
    | cons c x => exact .inl ⟨c :: x, _, hpath, List.cons_ne_nil c x, by simp, hlast, rfl⟩
  · rw [rdropWhile_none hmem]
    dsimp only
    rw [if_neg (not_not.mpr rfl)]
    by_cases hhead : path.head? = some slash
    · obtain ⟨y, rfl⟩ := List.head?_eq_some_iff.mp hhead
      rw [if_pos hhead]
      refine .inr (.inl ⟨y, rfl, fun hy => hmem ?_, rfl⟩)
      have hne : y ≠ [] := by
        rintro rfl
        cases hy
      rw [List.dropLast_cons_of_ne_nil hne]
      exact List.mem_cons_of_mem _ hy
    · rw [if_neg hhead]
      exact .inr (.inr ⟨hhead, hmem, rfl⟩)

theorem dirOf_append_baseOf (path : JSString) : dirOf path ++ baseOf path = path := by
  unfold baseOf
  rcases dirOf_cases path with ⟨x, y, hpath, -, -, -, hdir⟩ | ⟨y, hpath, -, hdir⟩ | ⟨-, -, hdir⟩
  · rw [hdir, hpath]
    simp
  · rw [hdir, hpath]
    rfl
  · rw [hdir]
    rfl

/-- The stem is empty only if all is. -/
theorem extOf_spec (base : JSString) :
    ∃ stem, base = stem ++ extOf base ∧ (stem = [] → base = []) ∧
      (extOf base = [] ∧ dot ∉ stem.tail ∨ ∃ v, extOf base = dot :: v ∧ dot ∉ v) := by
  unfold extOf
  by_cases hmem : dot ∈ base
  · obtain ⟨x, y, rfl, hy⟩ := last_of_mem hmem
    rw [rdropWhile_last x hy]
    dsimp only
    cases x with
    | nil => exact ⟨dot :: y, by simp, nofun, .inl ⟨rfl, hy⟩⟩
    | cons c x =>
      have hdrop : ((c :: x) ++ dot :: y).drop (((c :: x) ++ [dot]).length - 1) = dot :: y := by
        rw [List.length_append, List.length_singleton, Nat.add_sub_cancel, List.drop_left]
      rw [if_pos (by simp), hdrop]
      exact ⟨c :: x, rfl, nofun, .inr ⟨y, rfl, hy⟩⟩
  · rw [rdropWhile_none hmem]
    exact ⟨base, by simp, id, .inl ⟨rfl, fun h => hmem (List.mem_of_mem_tail h)⟩⟩

/-! ### The base and its extension -/

/-- No character that `.` leaves out. -/
def Clean (s : JSString) : Prop := ∀ c ∈ s, isLineTerminator c = false

instance (s : JSString) : Decidable (Clean s) := inferInstanceAs (Decidable (∀ c ∈ s, _))

section
variable {k : At UInt16 → Option (At UInt16)} {s : At UInt16}

theorem run_extPart_nil (hs : s.rest = []) : extPart.run k s = k s := by
  refine run_opt_of_none ?_
  rw [run_group, run_seq]
  exact run_lit_nil hs

/-- The dot that the extension begins with. -/
theorem run_extPart_dot {v : JSString} (hs : s.rest = dot :: v) (hv : dot ∉ v)
    (hk : (k ((s.skip (v.length + 1)).capture 3 (dot :: v))).isSome) :
    extPart.run k s = k ((s.skip (v.length + 1)).capture 3 (dot :: v)) := by
  -- where the extension ends, which is as far as the text goes
  have hend : past s k (((s.reset [3]).skip (1 + v.length)).capture 3
      ((s.reset [3]).text ((s.reset [3]).skip (1 + v.length)))) =
      k ((s.skip (v.length + 1)).capture 3 (dot :: v)) := by
    have hlength : 1 + v.length ≤ (s.reset [3]).rest.length := by simp [hs, Nat.add_comm]
    have hless : ((s.reset [3]).skip (1 + v.length)).rest.length < s.rest.length := by
      rw [At.rest_skip, At.rest_reset, hs, List.length_drop, List.length_cons]
      omega
    rw [At.text_skip _ hlength, past_of_lt (by simpa using hless), At.capture_reset,
      At.rest_reset, hs, Nat.add_comm 1, ← List.length_cons, List.take_length]
  have hahead : Ahead (· != dot) ((s.reset [3]).skip 1) v.length := by
    refine ⟨by simp [hs], fun c hc => ?_⟩
    have hmem : c ∈ v := by simpa [hs] using hc
    simpa using fun heq : c = dot => hv (heq ▸ hmem)
  have hrun : (group 3 (seq (lit dot) (star true (cls (· != dot))))).run (past s k) (s.reset [3]) =
      k ((s.skip (v.length + 1)).capture 3 (dot :: v)) := by
    have hlit : (s.reset [3]).rest = dot :: v := hs
    rw [run_group, run_seq, run_lit_cons hlit, if_pos rfl, run_greedy hahead, At.skip_skip, hend]
    · rw [At.skip_skip, hend]
      exact hk
    · intro m hm hmore
      have hlength := hmore.1
      simp [hs] at hlength
      omega
  rw [extPart, run_opt_of_isSome]
  · exact hrun
  · exact hrun ▸ hk

/-- The text cannot be cut anywhere but before an extension. -/
theorem run_extPart_none (hend : ∀ t : At UInt16, t.rest ≠ [] → k t = none) (hs : s.rest ≠ [])
    (h : ∀ v, s.rest = dot :: v → dot ∈ v) : extPart.run k s = none := by
  have hpast : ∀ t : At UInt16, t.rest ≠ [] → past s k t = none := by
    intro t ht
    unfold past
    rw [hend t ht, ite_self]
  obtain ⟨c, x, hx⟩ := List.exists_cons_of_ne_nil hs
  have hreset : (s.reset [3]).rest = c :: x := hx
  rw [extPart, run_opt_of_none, hend s hs]
  rw [run_group, run_seq]
  refine (run_lit_cons hreset).trans ?_
  split_ifs with hc
  · have hdot : dot ∈ x := h x (by rw [hx, hc])
    refine run_star_none fun n hn => hpast _ fun hnil => ?_
    rw [At.rest_capture, At.rest_skip] at hnil
    have hmem : dot ∈ ((s.reset [3]).skip 1).rest.take n := by
      rw [List.take_of_length_le (List.drop_eq_nil_iff.mp hnil), At.rest_skip, hreset]
      exact hdot
    exact absurd (hn.2 dot hmem) (by decide)
  · rfl

/-- The group for the base, up to the end. -/
def baseTail (s : At UInt16) (t : At UInt16) : Option (At UInt16) :=
  Regex.finish.run some (t.capture 2 (s.text t))

theorem baseTail_nil {t : At UInt16} (ht : t.rest = []) :
    baseTail s t = some (t.capture 2 s.rest) := by
  have htext : s.text t = s.rest := by
    unfold At.text
    rw [ht, List.length_nil, Nat.sub_zero, List.take_length]
  unfold baseTail
  rw [htext, Regex.run, At.rest_capture, ht]
  rfl

theorem baseTail_none {t : At UInt16} (ht : t.rest ≠ []) : baseTail s t = none := by
  unfold baseTail
  rw [Regex.run, At.rest_capture]
  exact if_neg (by simpa using ht)

theorem run_base_eq :
    (seq (group 2 (seq stemPart extPart)) .finish).run some s =
      stemPart.run (extPart.run (baseTail s)) s := rfl

def extEnd (t : At UInt16) : At UInt16 :=
  if t.rest = [] then t else (t.skip t.rest.length).capture 3 t.rest

theorem run_ext {t : At UInt16} (ht : t.rest = [] ∨ ∃ v, t.rest = dot :: v ∧ dot ∉ v) :
    extPart.run (baseTail s) t = some ((extEnd t).capture 2 s.rest) := by
  unfold extEnd
  rcases ht with ht | ⟨v, ht, hv⟩
  · rw [run_extPart_nil ht, baseTail_nil ht, if_pos ht]
  · have hend : ((t.skip (v.length + 1)).capture 3 (dot :: v)).rest = [] := by simp [ht]
    rw [run_extPart_dot ht hv (by rw [baseTail_nil hend]; rfl), baseTail_nil hend,
      if_neg (by simp [ht]), ht, List.length_cons]

theorem ahead_of_clean {y z : JSString} (hs : s.rest = y ++ z) (hy : Clean y) :
    Ahead (fun c => !isLineTerminator c) s y.length := by
  refine ⟨by simp [hs], fun c hc => ?_⟩
  rw [hs, List.take_left] at hc
  simpa using hy c hc

/-- The base is cut before its extension. -/
theorem run_base {stem ext : JSString} (hs : s.rest = stem ++ ext) (hstem : Clean stem)
    (hnil : stem = [] → ext = [])
    (hext : ext = [] ∧ dot ∉ stem.tail ∨ ∃ v, ext = dot :: v ∧ dot ∉ v) :
    (seq (group 2 (seq stemPart extPart)) .finish).run some s =
      some ((extEnd (s.skip stem.length)).capture 2 s.rest) := by
  have hrest : (s.skip stem.length).rest = ext := by rw [At.rest_skip, hs, List.drop_left]
  have hrun : extPart.run (baseTail s) (s.skip stem.length) =
      some ((extEnd (s.skip stem.length)).capture 2 s.rest) :=
    run_ext (by rw [hrest]; exact hext.imp_left And.left)
  rw [run_base_eq]
  cases stem with
  | nil =>
    obtain rfl := hnil rfl
    rw [stemPart, run_opt_of_none]
    · exact hrun
    · refine run_plus_none fun n hn => ?_
      have hlength := hn.1
      rw [At.rest_reset, hs] at hlength
      cases hlength
  | cons c stem =>
    have hpast : ∀ n, past s (extPart.run (baseTail s)) (s.skip (n + 1)) =
        extPart.run (baseTail s) (s.skip (n + 1)) := fun n => past_skip (by simp [hs]) n
    have hsome : (extPart.run (baseTail s) (s.skip (stem.length + 1))).isSome := by
      rw [← List.length_cons, hrun]
      rfl
    have hplus : (plus false anyChar).run (past s (extPart.run (baseTail s))) (s.reset []) =
        extPart.run (baseTail s) (s.skip (stem.length + 1)) := by
      rw [At.reset_nil, anyChar, run_plus_lazy (ahead_of_clean hs hstem) (by rwa [hpast]), hpast]
      intro m hm
      rw [hpast]
      -- a part of the stem is left, and no extension begins there
      have hleft : (s.skip (m + 1)).rest = stem.drop m ++ ext := by
        rw [At.rest_skip, hs, List.cons_append, List.drop_succ_cons, List.drop_append_of_le_length]
        exact Nat.le_of_lt hm
      have hne : stem.drop m ≠ [] := by simpa using hm
      have hmore : (s.skip (m + 1)).rest ≠ [] := by
        rw [hleft]
        exact List.append_ne_nil_of_left_ne_nil hne ext
      refine run_extPart_none (fun t => baseTail_none) hmore fun v hv => ?_
      obtain ⟨d, x, hx⟩ := List.exists_cons_of_ne_nil hne
      rw [hleft, hx, List.cons_append] at hv
      obtain ⟨rfl, rfl⟩ := List.cons_eq_cons.mp hv
      rcases hext with ⟨-, hdot⟩ | ⟨v, rfl, -⟩
      · exact absurd (List.mem_of_mem_drop (hx ▸ List.mem_cons_self)) hdot
      · simp
    rw [stemPart, run_opt_of_isSome]
    · exact hplus.trans hrun
    · exact hplus ▸ hsome

end

/-! ### The directory -/

theorem eq_nil_of_slash {a y w : JSString} (hy : slash ∉ y.dropLast) (h : y = a ++ slash :: w) :
    w = [] := by
  by_contra hw
  refine hy ?_
  rw [h, List.dropLast_append_cons, List.dropLast_cons_of_ne_nil hw]
  exact List.mem_append_right a List.mem_cons_self

section
variable {k : At UInt16 → Option (At UInt16)} {s : At UInt16}

/-- `\/(?!$)` -/
theorem run_slashInside {w : JSString} (hs : s.rest = slash :: w) (hw : w ≠ []) :
    (seq (lit slash) (notAhead .finish)).run k s = k (s.skip 1) := by
  have hrest : (s.skip 1).rest = w := by rw [At.rest_skip, hs, List.drop_one, List.tail_cons]
  rw [run_seq, run_lit_cons hs, if_pos rfl, Regex.run, Regex.run, hrest]
  simp [hw]

theorem run_slashInside_none (h : ∀ w, s.rest = slash :: w → w = []) :
    (seq (lit slash) (notAhead .finish)).run k s = none := by
  rw [run_seq]
  cases hs : s.rest with
  | nil => exact run_lit_nil hs
  | cons c w =>
    rw [run_lit_cons hs]
    split_ifs with hc
    · have hrest : (s.skip 1).rest = [] := by
        rw [At.rest_skip, hs, h w (by rw [hs, hc])]
        rfl
      rw [Regex.run, Regex.run, hrest]
      rfl
    · rfl

/-- `.+\/(?!$)` -/
theorem run_dirInside {x y : JSString} (hs : s.rest = x ++ slash :: y) (hx : x ≠ [])
    (hclean : Clean x) (hy : y ≠ []) (hlast : slash ∉ y.dropLast)
    (hk : (k (s.skip (x.length + 1))).isSome) :
    (seq (.plus true anyChar) (seq (lit slash) (notAhead .finish))).run k s =
      k (s.skip (x.length + 1)) := by
  obtain ⟨c, x, rfl⟩ := List.exists_cons_of_ne_nil hx
  have hrest : (s.skip (x.length + 1)).rest = slash :: y := by
    rw [At.rest_skip, hs, ← List.length_cons, List.drop_left]
  have hslash : (seq (lit slash) (notAhead .finish)).run k (s.skip (x.length + 1)) =
      k (s.skip ((c :: x).length + 1)) := by
    rw [run_slashInside hrest hy, At.skip_skip, List.length_cons]
  rw [run_seq, anyChar, run_plus_greedy (ahead_of_clean hs hclean) (by rwa [hslash]), hslash]
  intro m hm _
  refine run_slashInside_none fun w hw => eq_nil_of_slash hlast (a := y.take (m - x.length - 1)) ?_
  have hdrop : (s.skip (m + 1)).rest = y.drop (m - x.length - 1) := by
    obtain ⟨j, rfl⟩ : ∃ j, m = x.length + 1 + j := ⟨m - (x.length + 1), by omega⟩
    have hj : x.length + 1 + j - x.length - 1 = j := by omega
    have hskip : s.skip (x.length + 1 + j + 1) = (s.skip (x.length + 1)).skip (j + 1) := by
      rw [At.skip_skip, Nat.add_assoc]
    rw [hskip, hj, At.rest_skip, hrest, List.drop_succ_cons]
  rw [← hw, hdrop, List.take_append_drop]

theorem run_dirInside_none (h : ∀ x w, s.rest = x ++ slash :: w → x ≠ [] → w = []) :
    (seq (.plus true anyChar) (seq (lit slash) (notAhead .finish))).run k s = none := by
  rw [run_seq]
  refine run_plus_none fun n hn => run_slashInside_none fun w hw => ?_
  refine h (s.rest.take (n + 1)) w ?_ ?_
  · rw [← hw, At.rest_skip, List.take_append_drop]
  · have hlength := hn.1
    intro hnil
    have hzero := congrArg List.length hnil
    rw [List.length_take_of_le hlength] at hzero
    cases hzero

/-- What `dirPart` leaves, before the base. -/
def dirEnd (s : At UInt16) : At UInt16 :=
  if dirOf s.rest = [] then s else (s.skip (dirOf s.rest).length).capture 1 (dirOf s.rest)

/-- The group for the directory takes the longest one. -/
theorem run_dirPart (hclean : Clean s.rest) (hk : (k (dirEnd s)).isSome) :
    dirPart.run k s = k (dirEnd s) := by
  have hpast : ∀ n, n ≠ 0 → n ≤ s.rest.length → past s k (((s.reset [1]).skip n).capture 1
      ((s.reset [1]).text ((s.reset [1]).skip n))) =
      k ((s.skip n).capture 1 (s.rest.take n)) := by
    intro n hn hlength
    have hless : s.rest.length - n < s.rest.length := by omega
    rw [At.text_skip (s.reset [1]) hlength, past_of_lt (by simpa using hless), At.capture_reset,
      At.rest_reset]
  rcases dirOf_cases s.rest with ⟨x, y, hs, hx, hy, hlast, hdir⟩ | ⟨y, hs, hlast, hdir⟩ |
    ⟨hhead, hlast, hdir⟩
  · have htake : s.rest.take (x.length + 1) = x ++ [slash] := by
      rw [hs, List.take_length_add_append]
      rfl
    have hdirEnd : dirEnd s = (s.skip (x.length + 1)).capture 1 (x ++ [slash]) := by
      rw [dirEnd, hdir, if_neg (by simp), List.length_append, List.length_singleton]
    have hend := hpast (x.length + 1) (Nat.succ_ne_zero _) (by simp [hs])
    rw [htake, ← hdirEnd] at hend
    have hx' : Clean x := fun c hc => hclean c (by rw [hs]; exact List.mem_append_left _ hc)
    have hinside := run_dirInside (s := s.reset [1]) (k := fun t => past s k (t.capture 1
      ((s.reset [1]).text t))) hs hx hx' hy hlast (by rwa [hend])
    have hgroup : (group 1 (alt (seq (.plus true anyChar) (seq (lit slash) (notAhead .finish)))
        (lit slash))).run (past s k) (s.reset [1]) = k (dirEnd s) := by
      rw [run_group, run_alt, hinside, hend]
      exact Option.or_of_isSome hk
    rw [dirPart, run_opt_of_isSome]
    · exact hgroup
    · exact hgroup ▸ hk
  · have hdirEnd : dirEnd s = (s.skip 1).capture 1 [slash] := by
      rw [dirEnd, hdir, if_neg (by simp), List.length_singleton]
    have hend := hpast 1 Nat.one_ne_zero (by simp [hs])
    rw [show s.rest.take 1 = [slash] by rw [hs]; rfl, ← hdirEnd] at hend
    have hinside : (seq (.plus true anyChar) (seq (lit slash) (notAhead .finish))).run
        (fun t => past s k (t.capture 1 ((s.reset [1]).text t))) (s.reset [1]) = none := by
      refine run_dirInside_none fun x w hsplit hx => ?_
      obtain ⟨c, x, rfl⟩ := List.exists_cons_of_ne_nil hx
      rw [At.rest_reset, hs, List.cons_append] at hsplit
      exact eq_nil_of_slash hlast (List.cons_eq_cons.mp hsplit).2
    have hgroup : (group 1 (alt (seq (.plus true anyChar) (seq (lit slash) (notAhead .finish)))
        (lit slash))).run (past s k) (s.reset [1]) = k (dirEnd s) := by
      rw [run_group, run_alt, hinside, Option.none_or]
      exact (run_lit_cons (s := s.reset [1]) hs).trans ((if_pos rfl).trans hend)
    rw [dirPart, run_opt_of_isSome]
    · exact hgroup
    · exact hgroup ▸ hk
  · have hdirEnd : dirEnd s = s := if_pos hdir
    have hinside : (seq (.plus true anyChar) (seq (lit slash) (notAhead .finish))).run
        (fun t => past s k (t.capture 1 ((s.reset [1]).text t))) (s.reset [1]) = none :=
      run_dirInside_none fun x w hsplit _ => eq_nil_of_slash hlast hsplit
    rw [dirPart, run_opt_of_none, hdirEnd]
    rw [run_group, run_alt]
    refine (congrArg (Option.or · _) hinside).trans ((Option.none_or).trans ?_)
    cases hs : s.rest with
    | nil => exact run_lit_nil hs
    | cons c x =>
      refine (run_lit_cons (s := s.reset [1]) hs).trans (if_neg ?_)
      rintro rfl
      rw [hs] at hhead
      exact hhead rfl

end

theorem rest_dirEnd (s : At UInt16) : (dirEnd s).rest = baseOf s.rest := by
  unfold dirEnd baseOf
  split_ifs with hnil
  · rw [hnil]
    rfl
  · rfl

/-- The groups of the direct split. -/
theorem splitPath_eq {path : JSString} (h : Clean path) :
    ∃ groups, splitPath path = some groups ∧
      groups 1 = (if dirOf path = [] then none else some (dirOf path)) ∧
      groups 2 = some (baseOf path) ∧
      groups 3 = if extOf (baseOf path) = [] then none else some (extOf (baseOf path)) := by
  obtain ⟨stem, hbase, hnil, hext⟩ := extOf_spec (baseOf path)
  let s : At UInt16 := ⟨0, path, fun _ => none⟩
  have hrest : (dirEnd s).rest = baseOf path := rest_dirEnd s
  have hstem : Clean stem := fun c hc => h c (by
    rw [← dirOf_append_baseOf path, hbase]
    exact List.mem_append_right _ (List.mem_append_left _ hc))
  have hext' : stem = [] → extOf (baseOf path) = [] := fun hs => by rw [hnil hs]; rfl
  have hrun := run_base (s := dirEnd s) (hrest.trans hbase) hstem hext' hext
  have hexec : (seq dirPart (seq (group 2 (seq stemPart extPart)) .finish)).run some s =
      some ((extEnd ((dirEnd s).skip stem.length)).capture 2 (baseOf path)) := by
    rw [run_seq, run_dirPart h (by rw [hrun]; rfl), hrun, hrest]
  have hskip : ((dirEnd s).skip stem.length).rest = extOf (baseOf path) := by
    rw [At.rest_skip, hrest]
    conv_lhs => rw [hbase]
    exact List.drop_left
  refine ⟨((extEnd ((dirEnd s).skip stem.length)).capture 2 (baseOf path)).groups, ?_, ?_, rfl, ?_⟩
  · unfold splitPath splitPathRe
    rw [exec_start, hexec]
    rfl
  · unfold extEnd dirEnd
    split_ifs <;> rfl
  · unfold extEnd
    rw [hskip]
    split_ifs
    · unfold dirEnd
      split_ifs <;> rfl
    · rfl

/-- `splitPathRe` cuts a path where the direct split does. -/
theorem splitPath_direct {path : JSString} (h : Clean path) :
    (∃ groups, splitPath path = some groups ∧
      groups 1 = (if dirOf path = [] then none else some (dirOf path)) ∧
      groups 2 = some (baseOf path) ∧
      groups 3 = if extOf (baseOf path) = [] then none else some (extOf (baseOf path))) ∧
      basename path [] = some (baseOf path) ∧ dirOf path ++ baseOf path = path ∧
      ∀ ext, ext ≠ [] → ext <:+ baseOf path →
        ∃ f, basename path ext = some f ∧ f ++ ext = baseOf path := by
  obtain ⟨groups, hsplit, hdir, hbase, hext⟩ := splitPath_eq h
  have hname : ∀ ext, basename path ext =
      if ext ≠ [] ∧ (baseOf path).drop ((baseOf path).length - ext.length) = ext then
        some ((baseOf path).take ((baseOf path).length - ext.length))
      else some (baseOf path) := by
    intro ext
    unfold basename
    rw [hsplit, Option.bind_eq_bind, Option.bind_some, hbase]
    rfl
  refine ⟨⟨groups, hsplit, hdir, hbase, hext⟩, ?_, dirOf_append_baseOf path, ?_⟩
  · rw [hname, if_neg fun hand => hand.1 rfl]
  · intro ext hne hsuffix
    have hdrop := (List.suffix_iff_eq_drop.mp hsuffix).symm
    refine ⟨_, (hname ext).trans (if_pos ⟨hne, hdrop⟩), ?_⟩
    conv_lhs => rw [← hdrop]
    rw [List.length_drop, Nat.sub_sub_self hsuffix.length_le]
    exact List.take_append_drop _ _

theorem splitPath_direct_dots : (∃ groups, splitPath (js "//a/.b/..c.d/") = some groups ∧
      groups 1 = (if dirOf (js "//a/.b/..c.d/") = [] then none
        else some (dirOf (js "//a/.b/..c.d/"))) ∧
      groups 2 = some (baseOf (js "//a/.b/..c.d/")) ∧
      groups 3 = if extOf (baseOf (js "//a/.b/..c.d/")) = [] then none
        else some (extOf (baseOf (js "//a/.b/..c.d/")))) ∧
    ∃ f, basename (js "//a/.b/..c.d/") (js "/") = some f ∧
      f ++ js "/" = baseOf (js "//a/.b/..c.d/") :=
  have h := @splitPath_direct (js "//a/.b/..c.d/") (by decide)
  ⟨h.1, h.2.2.2 (js "/") (by decide) ⟨js "..c.d", by decide +kernel⟩⟩

example : basename (js "/x/.a.b") (js ".b") = some (js ".a") := by decide +kernel

end NodeJS.Path
