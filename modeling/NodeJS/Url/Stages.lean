import NodeJS.Url.Parse

/-! What each stage of `urlParse` does to its part of the text. -/
namespace NodeJS.Url

/-! ### First characters of a kind -/

section
variable {p q : UInt16 → Bool} {s : JSString}

/-- The smaller of two indices that may be missing. -/
def sooner : Option ℕ → Option ℕ → Option ℕ
  | none, j => j
  | some i, none => some i
  | some i, some j => some (min i j)

theorem sooner_assoc (i j k : Option ℕ) : sooner (sooner i j) k = sooner i (sooner j k) := by
  cases i with
  | none => rfl
  | some i =>
    cases j with
    | none => rfl
    | some j =>
      cases k with
      | none => rfl
      | some k => exact congrArg some (Nat.min_assoc i j k)

theorem sooner_comm (i j : Option ℕ) : sooner i j = sooner j i := by
  cases i with
  | none => cases j <;> rfl
  | some i =>
    cases j with
    | none => rfl
    | some j => exact congrArg some (Nat.min_comm i j)

theorem sooner_succ (i j : Option ℕ) :
    sooner (i.map (· + 1)) (j.map (· + 1)) = (sooner i j).map (· + 1) := by
  cases i with
  | none => rfl
  | some i =>
    cases j with
    | none => rfl
    | some j => simp [sooner]

theorem findIdx_or (p q : UInt16 → Bool) (s : JSString) :
    s.findIdx? (fun c => p c || q c) = sooner (s.findIdx? p) (s.findIdx? q) := by
  induction s with
  | nil => rfl
  | cons c s ih =>
    rw [List.findIdx?_cons, List.findIdx?_cons, List.findIdx?_cons, ih]
    cases hp : p c with
    | true => cases hq : q c <;> cases s.findIdx? q <;> simp [sooner]
    | false =>
      cases hq : q c with
      | true => cases s.findIdx? p <;> simp [sooner]
      | false => simpa using (sooner_succ _ _).symm

theorem findIdx_contains_cons (c : UInt16) (cs : JSString) (s : JSString) :
    s.findIdx? (c :: cs).contains = sooner (s.idxOf? c) (s.findIdx? cs.contains) := by
  rw [List.idxOf?, ← findIdx_or]
  congr 1

theorem take_findIdx (p : UInt16 → Bool) (s : JSString) :
    s.take ((s.findIdx? p).getD s.length) = s.takeWhile fun c => !p c := by
  induction s with
  | nil => rfl
  | cons c s ih =>
    rw [List.findIdx?_cons, List.takeWhile_cons]
    cases hp : p c with
    | true => rfl
    | false =>
      rw [← ih]
      cases s.findIdx? p with
      | none => rfl
      | some i => rfl

end

/-! ### The loops over a table -/

theorem findIdx_contains_nil (s : JSString) : s.findIdx? (List.contains []) = none := by
  rw [List.findIdx?_eq_none_iff]
  exact fun _ _ => rfl

theorem firstNonHostRound_eq (rest : JSString) (first : Option ℕ) (c : UInt16) :
    firstNonHostRound rest first c = sooner first (rest.idxOf? c) := by
  unfold firstNonHostRound
  cases rest.idxOf? c with
  | none => cases first <;> rfl
  | some index =>
    cases first with
    | none => rfl
    | some first =>
      dsimp only [sooner]
      split_ifs with h
      · rw [Nat.min_eq_right (Nat.le_of_lt h)]
      · rw [Nat.min_eq_left (Nat.le_of_not_lt h)]

/-- The loop over the table finds where the host ends. -/
theorem firstNonHost_eq (rest : JSString) :
    firstNonHost rest = rest.findIdx? nonHostChars.contains := by
  have hloop : ∀ (cs : JSString) (first : Option ℕ),
      cs.foldl (firstNonHostRound rest) first = sooner first (rest.findIdx? cs.contains) := by
    intro cs
    induction cs with
    | nil =>
      intro first
      rw [findIdx_contains_nil]
      cases first <;> rfl
    | cons c cs ih =>
      intro first
      rw [List.foldl_cons, ih, findIdx_contains_cons, firstNonHostRound_eq, sooner_assoc]
  exact hloop nonHostChars none

theorem chopRound_eq (rest : JSString) (n : ℕ) (c : UInt16) :
    some (chopRound rest n c) = sooner (rest.idxOf? c) (some n) := by
  unfold chopRound
  cases rest.idxOf? c with
  | none => rfl
  | some index => rfl

theorem chop_eq (rest : JSString) : chop rest = rest.takeWhile fun c => !delims.contains c := by
  have hloop : ∀ (cs : JSString) (n : ℕ),
      some (cs.foldl (chopRound rest) n) = sooner (rest.findIdx? cs.contains) (some n) := by
    intro cs
    induction cs with
    | nil =>
      intro n
      rw [findIdx_contains_nil]
      rfl
    | cons c cs ih =>
      intro n
      rw [List.foldl_cons, ih, chopRound_eq, findIdx_contains_cons, ← sooner_assoc,
        sooner_comm (rest.idxOf? c)]
  have hchop := hloop delims rest.length
  unfold chop
  rw [← take_findIdx]
  generalize delims.foldl (chopRound rest) rest.length = n at hchop ⊢
  cases hfind : rest.findIdx? delims.contains with
  | none =>
    rw [hfind] at hchop
    obtain rfl : n = rest.length := Option.some.inj hchop
    rfl
  | some i =>
    have hlt : i < rest.length := (List.findIdx?_eq_some_iff_getElem.mp hfind).1
    rw [hfind] at hchop
    have hmin : n = min i rest.length := Option.some.inj hchop
    rw [hmin, Nat.min_eq_left (Nat.le_of_lt hlt)]
    rfl

/-! ### The part in front of `@` -/

theorem idxOf_lt_iff {c : UInt16} {s : JSString} {i : ℕ} :
    (∃ index, s.idxOf? c = some index ∧ index < i) ↔ c ∈ s.take i := by
  induction s generalizing i with
  | nil => simp
  | cons d s ih =>
    rw [List.idxOf?_cons]
    cases i with
    | zero => simp
    | succ i =>
      rw [List.take_succ_cons, List.mem_cons, ← ih]
      by_cases hd : d = c
      · subst hd
        simp
      · simp [hd, Ne.symm hd]

/-- Nothing in front of the `@` that an auth cannot have. -/
theorem pluckAuth_append {user : JSString} (h : ∀ c ∈ user, nonAuthChars.contains c = false)
    (rest : JSString) : pluckAuth (user ++ atSign :: rest) = (some user, rest) := by
  have hat : atSign ∉ user := fun hmem => absurd (h atSign hmem) (by decide)
  have hidx : (user ++ atSign :: rest).idxOf? atSign = some user.length := by
    rw [List.idxOf?_eq_some_iff]
    refine ⟨by simp, by simp, fun j hj => ?_⟩
    rw [List.getElem_append_left hj]
    exact fun heq => hat (heq ▸ List.getElem_mem hj)
  have hall : nonAuthChars.all (mayBeAuth (user ++ atSign :: rest) user.length) = true := by
    rw [List.all_eq_true]
    intro c hc
    unfold mayBeAuth
    cases hfind : (user ++ atSign :: rest).idxOf? c with
    | none => rfl
    | some index =>
      refine (Bool.not_eq_true' _).mpr (decide_eq_false fun hlt => ?_)
      have hmem := idxOf_lt_iff.mp ⟨index, hfind, hlt⟩
      rw [List.take_left] at hmem
      have hnot := h c hmem
      rw [List.contains_iff_mem.mpr hc] at hnot
      cases hnot
  unfold pluckAuth
  rw [hidx]
  dsimp only
  rw [hall, if_pos rfl, List.take_left, List.drop_length_add_append]
  rfl

theorem pluckAuth_cases (rest : JSString) :
    pluckAuth rest = (none, rest) ∨ ∃ user rest', rest = user ++ atSign :: rest' ∧
      (∀ c ∈ user, nonAuthChars.contains c = false) ∧ pluckAuth rest = (some user, rest') := by
  unfold pluckAuth
  cases hidx : rest.idxOf? atSign with
  | none => exact .inl rfl
  | some i =>
    dsimp only
    split_ifs with hall
    · refine .inr ⟨rest.take i, rest.drop (i + 1), ?_, fun c hc => ?_, rfl⟩
      · obtain ⟨hlt, hget, -⟩ := List.idxOf?_eq_some_iff.mp hidx
        conv_lhs => rw [← List.take_append_drop i rest, List.drop_eq_getElem_cons hlt, hget]
      · obtain ⟨index, hfind, hlt⟩ := idxOf_lt_iff.mpr hc
        refine Bool.eq_false_iff.mpr fun hmem => ?_
        have hnot := List.all_eq_true.mp hall c (List.contains_iff_mem.mp hmem)
        rw [mayBeAuth, hfind] at hnot
        simp [hlt] at hnot
    · exact .inl rfl

/-! ### The whole of it -/

def schemeOf (url : JSString) : Option JSString := protocolPattern (url.dropWhile delims.contains)

def afterScheme (url : JSString) : JSString :=
  (url.dropWhile delims.contains).drop ((schemeOf url).getD []).length

/-- `out.slashes` -/
def hasSlashes (slashesDenoteHost : Bool) (proto : Option JSString) (rest : JSString) : Bool :=
  ((slashesDenoteHost || proto.isSome || userAtHost rest) && rest.take 2 == [slash, slash]) &&
    !has hostlessProtocol proto

def hostText (slashesDenoteHost : Bool) (proto : Option JSString) (rest : JSString) :
    Option JSString :=
  if hasSlashes slashesDenoteHost proto rest then some (rest.drop 2)
  else if proto.isSome && !has hostlessProtocol proto && !has slashedProtocol proto then some rest
  else none

def tailText (proto : Option JSString) (rest : JSString) : JSString :=
  if has unsafeProtocol (proto.map toLowerCase) then rest else chop (escapeRest rest)

theorem urlParse_eq (Q : QueryString) (url : JSString) (parseQueryString slashesDenoteHost : Bool) :
    urlParse Q url parseQueryString slashesDenoteHost =
      let proto := schemeOf url
      let rest := afterScheme url
      let text := hostText slashesDenoteHost proto rest
      assemble proto (hasSlashes slashesDenoteHost proto rest)
        (text.map fun text => (hostStage text).1)
        (tailStage Q parseQueryString
          (tailText proto (text.elim rest fun text => (hostStage text).2))) := by
  unfold urlParse hostText hasSlashes tailText afterScheme schemeOf
  dsimp only
  generalize protocolPattern _ = proto
  generalize (url.dropWhile _).drop _ = rest
  generalize ((slashesDenoteHost || proto.isSome || userAtHost rest) &&
    rest.take 2 == [slash, slash]) = slashes
  cases has hostlessProtocol proto with
  | true => simp
  | false =>
    cases slashes with
    | true => simp
    | false =>
      cases hsome : proto.isSome && !has slashedProtocol proto with
      | true => simp [hsome]
      | false => simp [hsome]

end NodeJS.Url
