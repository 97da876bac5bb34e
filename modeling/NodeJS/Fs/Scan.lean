import NodeJS.Fs.Realpath
import Mathlib.Logic.Relation

/-! What both functions do to a path, one link after the other: the first link among its prefixes
is replaced by what it leads to. -/
namespace NodeJS.Fs
open NodeJS.Path Lib

/-! ### Parts -/

/-- What `nextPartRe` takes of a name. -/
def visible : JSString → JSString
  | [] => []
  | c :: s => if (c :: s).any isLineTerminator then visible s else c :: s

/-- The string for a directory, with the slash that it ends in. -/
def dir (done : List JSString) : JSString := slash :: done.flatMap (· ++ [slash])

theorem dir_append (done : List JSString) (c : JSString) :
    dir (done ++ [c]) = dir done ++ c ++ [slash] := by
  simp [dir]

theorem visible_suffix (c : JSString) : visible c <:+ c := by
  induction c with
  | nil => exact List.suffix_refl _
  | cons x c ih =>
    rw [visible]
    split_ifs
    · exact ih.trans (List.suffix_cons x c)
    · exact List.suffix_refl _

theorem visible_of_any {c : JSString} (h : c.any isLineTerminator = false) : visible c = c := by
  cases c with
  | nil => rfl
  | cons x c => rw [visible, if_neg (by rw [h]; exact Bool.noConfusion)]

theorem any_visible (c : JSString) : (visible c).any isLineTerminator = false := by
  induction c with
  | nil => rfl
  | cons x c ih =>
    rw [visible]
    split_ifs with h
    · exact ih
    · simpa using h

@[simp] theorem visible_visible (c : JSString) : visible (visible c) = visible c :=
  visible_of_any (any_visible c)

theorem slash_not_mem_visible {c : JSString} (h : slash ∉ c) : slash ∉ visible c :=
  fun hmem => h ((visible_suffix c).mem hmem)

theorem partAt_append {c rest : JSString} (hc : slash ∉ c)
    (hrest : rest = [] ∨ rest.head? = some slash) :
    partAt (c ++ rest) = if c.any isLineTerminator then none else some (c, rest) := by
  induction c with
  | nil =>
    rcases hrest with rfl | hrest
    · rfl
    · obtain ⟨s, rfl⟩ := List.head?_eq_some_iff.mp hrest
      rfl
  | cons x c ih =>
    have hx : x ≠ slash := fun h => hc (h ▸ List.mem_cons_self)
    have ih := ih fun hmem => hc (List.mem_cons_of_mem _ hmem)
    rw [List.cons_append, partAt, if_neg hx, ih]
    cases hterm : isLineTerminator x with
    | true => simp [hterm]
    | false =>
      cases hany : c.any isLineTerminator with
      | true => simp [hterm, hany]
      | false => simp [hterm, hany]

theorem exec_append {c rest : JSString} (hc : slash ∉ c)
    (hrest : rest = [] ∨ rest.head? = some slash) :
    exec (c ++ rest) =
      ⟨visible c, visible c ++ rest.takeWhile (· = slash), rest.dropWhile (· = slash)⟩ := by
  induction c with
  | nil =>
    rcases hrest with rfl | hrest
    · rfl
    · obtain ⟨s, rfl⟩ := List.head?_eq_some_iff.mp hrest
      rfl
  | cons x c ih =>
    have ih := ih fun hmem => hc (List.mem_cons_of_mem _ hmem)
    have hpart := partAt_append hc hrest
    rw [List.cons_append] at hpart ⊢
    rw [exec, hpart, visible]
    split_ifs with hany
    · exact ih
    · rfl

/-- The next part of a normal path. -/
theorem exec_join {c : JSString} {todo : List JSString} (hc : IsName c)
    (htodo : ∀ c ∈ todo, IsName c) :
    exec (join (c :: todo)) =
      ⟨visible c, visible c ++ if todo = [] then [] else [slash], join todo⟩ := by
  have hrest : (if todo = [] then [] else slash :: join todo) = [] ∨
      (if todo = [] then [] else slash :: join todo).head? = some slash := by
    split_ifs
    · exact .inl rfl
    · exact .inr rfl
  have hjoin : join (c :: todo) = c ++ if todo = [] then [] else slash :: join todo := by
    rw [join_cons]
    split_ifs
    · rw [List.append_nil]
    · rfl
  rw [hjoin, exec_append hc.no_slash hrest]
  cases todo with
  | nil => rfl
  | cons c' todo =>
    have hhead : (join (c' :: todo)).head? ≠ some slash :=
      head_join (htodo c' List.mem_cons_self).part todo
    cases hs : join (c' :: todo) with
    | nil => simp
    | cons x s =>
      rw [hs] at hhead
      have hx : x ≠ slash := fun h => hhead (h ▸ rfl)
      simp [hx]

/-- The slash that a path begins with. -/
theorem exec_absolute {cs : List JSString} (hcs : ∀ c ∈ cs, IsName c) :
    exec (absolute cs) = ⟨[], [slash], join cs⟩ := by
  have hexec : exec ([] ++ absolute cs) = ⟨visible [],
      visible [] ++ (absolute cs).takeWhile (· = slash), (absolute cs).dropWhile (· = slash)⟩ :=
    exec_append List.not_mem_nil (.inr rfl)
  rw [List.nil_append] at hexec
  rw [hexec]
  unfold absolute
  cases cs with
  | nil => rfl
  | cons c cs =>
    have hhead := head_join (hcs c List.mem_cons_self).part cs
    cases hs : join (c :: cs) with
    | nil => rfl
    | cons x s =>
      rw [hs] at hhead
      have hx : x ≠ slash := fun h => hhead (h ▸ rfl)
      simp [visible, hx]

/-! ### Links -/

/-- What the scan of a path meets first. -/
inductive Found (Inode : Type)
  | hard
  | missing
  | link (id : Inode) (base : JSString) (resolvedLink rest : List JSString)
  deriving DecidableEq

/-- The scan of `todo` below the directories `done`. -/
def meet (F : Files) : List JSString → List JSString → Found F.Inode
  | _, [] => .hard
  | done, c :: todo =>
    match F.lstat (dir done ++ visible c) with
    | none => .missing
    | some id =>
      match F.readlink id with
      | none => meet F (done ++ [visible c]) todo
      | some target =>
        if F.stat id then
          .link id (dir done ++ visible c) (resolved (pieces (dir done)) target) todo
        else .missing

/-- The link that the scan comes to first, whether or not it can be followed. -/
def firstLink (F : Files) : List JSString → List JSString → Option F.Inode
  | _, [] => none
  | done, c :: todo =>
    match F.lstat (dir done ++ visible c) with
    | none => none
    | some id =>
      match F.readlink id with
      | none => firstLink F (done ++ [visible c]) todo
      | some _ => some id

def Expands (F : Files) (cs cs' : List JSString) : Prop :=
  ∃ id base resolvedLink rest, meet F [] cs = .link id base resolvedLink rest ∧
    cs' = resolvedLink ++ rest

/-- Replacing links ends with the path, or with one that cannot be followed. -/
inductive Resolves (F : Files) : List JSString → Option (List JSString) → Prop
  | hard {cs : List JSString} (h : meet F [] cs = .hard) : Resolves F cs (some cs)
  | missing {cs : List JSString} (h : meet F [] cs = .missing) : Resolves F cs none
  | link {cs cs' : List JSString} {o : Option (List JSString)} (h : Expands F cs cs')
      (hrest : Resolves F cs' o) : Resolves F cs o

/-- Replacing links comes to this link. -/
def Met (F : Files) (cs : List JSString) (id : F.Inode) : Prop :=
  ∃ cs', Relation.ReflTransGen (Expands F) cs cs' ∧ firstLink F [] cs' = some id

/-- No two of the links that it comes to agree in the lower halves of their numbers. -/
def Apart (F : Files) (cs : List JSString) : Prop :=
  ∀ a b, Met F cs a → Met F cs b → SameLow (F.numbers a) (F.numbers b) → a = b

theorem firstLink_of_meet {F : Files} {done todo : List JSString} {id : F.Inode} {base : JSString}
    {resolvedLink rest : List JSString}
    (h : meet F done todo = .link id base resolvedLink rest) : firstLink F done todo = some id := by
  induction todo generalizing done with
  | nil => cases h
  | cons c todo ih =>
    unfold meet at h
    unfold firstLink
    cases hstat : F.lstat (dir done ++ visible c) with
    | none => simp [hstat] at h
    | some id' =>
      simp only [hstat] at h ⊢
      cases hlink : F.readlink id' with
      | none =>
        simp only [hlink] at h ⊢
        exact ih h
      | some target =>
        simp only [hlink] at h ⊢
        split_ifs at h
        rw [(Found.link.inj h).1]

theorem firstLink_of_hard {F : Files} {done todo : List JSString} (h : meet F done todo = .hard) :
    firstLink F done todo = none := by
  induction todo generalizing done with
  | nil => rfl
  | cons c todo ih =>
    unfold meet at h
    unfold firstLink
    cases hstat : F.lstat (dir done ++ visible c) with
    | none => simp [hstat] at h
    | some id' =>
      simp only [hstat] at h ⊢
      cases hlink : F.readlink id' with
      | none =>
        simp only [hlink] at h ⊢
        exact ih h
      | some target =>
        simp only [hlink] at h
        split_ifs at h

theorem Expands.unique {F : Files} {cs cs₁ cs₂ : List JSString} (h₁ : Expands F cs cs₁)
    (h₂ : Expands F cs cs₂) : cs₁ = cs₂ := by
  obtain ⟨id, base, resolvedLink, rest, hmeet, rfl⟩ := h₁
  obtain ⟨id', base', resolvedLink', rest', hmeet', rfl⟩ := h₂
  obtain ⟨-, -, rfl, rfl⟩ := Found.link.inj (hmeet.symm.trans hmeet')
  rfl

section
variable {F : Files} {cs cs' done todo : List JSString}

/-- Without a link, nothing is replaced. -/
theorem not_expands_of_hard (h : meet F [] cs = .hard) : ¬ Expands F cs cs' := by
  rintro ⟨id, base, resolvedLink, rest, hlink, -⟩
  cases h.symm.trans hlink

theorem not_expands_of_missing (h : meet F [] cs = .missing) : ¬ Expands F cs cs' := by
  rintro ⟨id, base, resolvedLink, rest, hlink, -⟩
  cases h.symm.trans hlink

/-- The resolution after the first link. -/
theorem Resolves.expands {o : Option (List JSString)} (h : Resolves F cs o)
    (hexpands : Expands F cs cs') : Resolves F cs' o := by
  cases h with
  | hard hmeet => exact absurd hexpands (not_expands_of_hard hmeet)
  | missing hmeet => exact absurd hexpands (not_expands_of_missing hmeet)
  | link hexpands' hrest =>
    obtain rfl := hexpands.unique hexpands'
    exact hrest

/-- A path that is replaced by itself in the end never comes to an end. -/
theorem Resolves.acyclic {o : Option (List JSString)} (h : Resolves F cs o) :
    ¬ Relation.TransGen (Expands F) cs cs := by
  intro hloop
  obtain ⟨cs₂, hfirst, hrest⟩ := Relation.TransGen.head'_iff.mp hloop
  induction h generalizing cs₂ with
  | hard hmeet => exact not_expands_of_hard hmeet hfirst
  | missing hmeet => exact not_expands_of_missing hmeet hfirst
  | link hexpands _ ih =>
    obtain rfl := hfirst.unique hexpands
    have hloop' := Relation.TransGen.tail' hrest hexpands
    obtain ⟨cs₃, hfirst', hrest'⟩ := Relation.TransGen.head'_iff.mp hloop'
    exact ih hloop' cs₃ hfirst' hrest'

/-- The paths on the way end alike. -/
theorem Resolves.of_reached {o : Option (List JSString)} (h : Resolves F cs o)
    (hreached : Relation.ReflTransGen (Expands F) cs cs') : Resolves F cs' o := by
  induction hreached with
  | refl => exact h
  | tail _ hexpands ih => exact ih.expands hexpands

theorem Resolves.reach {o : Option (List JSString)} (h : Resolves F cs' o)
    (hreached : Relation.ReflTransGen (Expands F) cs cs') : Resolves F cs o := by
  induction hreached using Relation.ReflTransGen.head_induction_on with
  | refl => exact h
  | head hexpands _ ih => exact .link hexpands ih

theorem Resolves.unique {o o' : Option (List JSString)} (h : Resolves F cs o)
    (h' : Resolves F cs o') : o = o' := by
  induction h with
  | hard hmeet =>
    cases h' with
    | hard => rfl
    | missing hmeet' => cases hmeet.symm.trans hmeet'
    | link hexpands => exact absurd hexpands (not_expands_of_hard hmeet)
  | missing hmeet =>
    cases h' with
    | hard hmeet' => cases hmeet.symm.trans hmeet'
    | missing => rfl
    | link hexpands => exact absurd hexpands (not_expands_of_missing hmeet)
  | link hexpands _ ih => exact ih (h'.expands hexpands)

/-- Induction on what is left of a resolution that ends. -/
theorem Resolves.strong_induction {o : Option (List JSString)} {P : List JSString → Prop}
    (step : ∀ cs, Resolves F cs o → (∀ cs', Relation.TransGen (Expands F) cs cs' → P cs') → P cs)
    (h : Resolves F cs o) : P cs := by
  have hfurther : ∀ cs', Relation.TransGen (Expands F) cs cs' → P cs' := by
    induction h with
    | hard hmeet =>
      intro cs' hreached
      obtain ⟨_, hfirst, -⟩ := Relation.TransGen.head'_iff.mp hreached
      exact absurd hfirst (not_expands_of_hard hmeet)
    | missing hmeet =>
      intro cs' hreached
      obtain ⟨_, hfirst, -⟩ := Relation.TransGen.head'_iff.mp hreached
      exact absurd hfirst (not_expands_of_missing hmeet)
    | link hexpands hrest ih =>
      intro cs' hreached
      have ih := ih step
      obtain ⟨cs₂, hfirst, hreached⟩ := Relation.TransGen.head'_iff.mp hreached
      obtain rfl := hfirst.unique hexpands
      rcases Relation.reflTransGen_iff_eq_or_transGen.mp hreached with rfl | hreached
      · exact step _ hrest ih
      · exact ih _ hreached
  exact step cs h hfurther

/-! ### Links that are met -/

/-- Where there is no link, none is met. -/
theorem not_met_of_hard (h : meet F [] cs = .hard) {id : F.Inode} : ¬ Met F cs id := by
  rintro ⟨cs', hreached, hfirst⟩
  obtain rfl | ⟨_, hexpands, -⟩ := Relation.ReflTransGen.cases_head hreached
  · cases (firstLink_of_hard h).symm.trans hfirst
  · exact absurd hexpands (not_expands_of_hard h)

/-- What is met after a link that is replaced. -/
theorem met_of_link {id id' : F.Inode} {base : JSString} {resolvedLink rest : List JSString}
    (h : meet F [] cs = .link id base resolvedLink rest) (hmet : Met F cs id') :
    id' = id ∨ Met F (resolvedLink ++ rest) id' := by
  obtain ⟨cs', hreached, hfirst⟩ := hmet
  obtain rfl | ⟨cs₁, hexpands, hreached⟩ := Relation.ReflTransGen.cases_head hreached
  · exact .inl (Option.some.inj (hfirst.symm.trans (firstLink_of_meet h)))
  · obtain rfl := hexpands.unique ⟨_, _, _, _, h, rfl⟩
    exact .inr ⟨cs', hreached, hfirst⟩

theorem Apart.of_mem (ids : List F.Inode) (hmet : ∀ id, Met F cs id → id ∈ ids)
    (h : ∀ a ∈ ids, ∀ b ∈ ids, SameLow (F.numbers a) (F.numbers b) → a = b) : Apart F cs :=
  fun a b ha hb => h a (hmet a ha) b (hmet b hb)

/-- More names do not change what is met. -/
theorem meet_append {id : F.Inode} {base : JSString} {resolvedLink rest : List JSString}
    (h : meet F done cs = .link id base resolvedLink rest) (more : List JSString) :
    meet F done (cs ++ more) = .link id base resolvedLink (rest ++ more) := by
  induction cs generalizing done with
  | nil => cases h
  | cons c cs ih =>
    rw [List.cons_append]
    unfold meet at h ⊢
    cases hstat : F.lstat (dir done ++ visible c) with
    | none => simp [hstat] at h
    | some id' =>
      simp only [hstat] at h ⊢
      cases hlink : F.readlink id' with
      | none =>
        simp only [hlink] at h ⊢
        exact ih h
      | some target =>
        simp only [hlink] at h ⊢
        split_ifs at h ⊢
        obtain ⟨rfl, rfl, rfl, rfl⟩ := Found.link.inj h
        rfl

theorem Expands.append (h : Expands F cs cs') (more : List JSString) :
    Expands F (cs ++ more) (cs' ++ more) := by
  obtain ⟨id, base, resolvedLink, rest, hmeet, rfl⟩ := h
  exact ⟨id, base, resolvedLink, rest ++ more, meet_append hmeet more, List.append_assoc _ _ _⟩

theorem reached_append (h : Relation.ReflTransGen (Expands F) cs cs') (more : List JSString) :
    Relation.ReflTransGen (Expands F) (cs ++ more) (cs' ++ more) :=
  Relation.ReflTransGen.lift (· ++ more) (fun _ _ h => h.append more) _ _ h

theorem meet_rest {id : F.Inode} {base : JSString} {resolvedLink rest : List JSString}
    (h : meet F done todo = .link id base resolvedLink rest) :
    rest ⊆ todo ∧ ∀ c ∈ resolvedLink, IsName c := by
  induction todo generalizing done with
  | nil => cases h
  | cons c todo ih =>
    unfold meet at h
    cases hstat : F.lstat (dir done ++ visible c) with
    | none => simp [hstat] at h
    | some id' =>
      simp only [hstat] at h
      cases hlink : F.readlink id' with
      | none =>
        simp only [hlink] at h
        obtain ⟨hsub, hnames⟩ := ih h
        exact ⟨fun x hx => List.mem_cons_of_mem _ (hsub hx), hnames⟩
      | some target =>
        simp only [hlink] at h
        split_ifs at h
        obtain ⟨-, -, rfl, rfl⟩ := Found.link.inj h
        exact ⟨List.subset_cons_self _ _, isName_resolved (pieces_no_slash _) target⟩

theorem Expands.names (h : Expands F cs cs') (hcs : ∀ c ∈ cs, IsName c) : ∀ c ∈ cs', IsName c := by
  obtain ⟨id, base, resolvedLink, rest, hmeet, rfl⟩ := h
  obtain ⟨hsub, hnames⟩ := meet_rest hmeet
  exact List.forall_mem_append.mpr ⟨hnames, fun c hc => hcs c (hsub hc)⟩

theorem names_of_reached (h : Relation.ReflTransGen (Expands F) cs cs')
    (hcs : ∀ c ∈ cs, IsName c) : ∀ c ∈ cs', IsName c := by
  induction h with
  | refl => exact hcs
  | tail _ hexpands ih => exact hexpands.names ih

end

/-! ### Directories -/

def Plain (F : Files) (base : JSString) : Prop :=
  ∃ id, F.lstat base = some id ∧ F.readlink id = none

/-- The names that a scan has gone past. -/
inductive HardDir (F : Files) : List JSString → Prop
  | nil : HardDir F []
  | snoc {done : List JSString} {c : JSString} (h : HardDir F done) (hslash : slash ∉ c)
      (hvisible : visible c = c) (hplain : Plain F (dir done ++ c)) : HardDir F (done ++ [c])

section
variable {F : Files} {cs done todo : List JSString} {c : JSString}

theorem HardDir.no_slash (h : HardDir F done) : ∀ c ∈ done, slash ∉ c := by
  induction h with
  | nil => exact nofun
  | snoc _ hslash _ _ ih =>
    exact List.forall_mem_append.mpr ⟨ih, List.forall_mem_singleton.mpr hslash⟩

theorem meet_cons_plain (h : Plain F (dir done ++ visible c)) :
    meet F done (c :: todo) = meet F (done ++ [visible c]) todo := by
  obtain ⟨id, hstat, hlink⟩ := h
  simp [meet, hstat, hlink]

theorem firstLink_cons_plain (h : Plain F (dir done ++ visible c)) :
    firstLink F done (c :: todo) = firstLink F (done ++ [visible c]) todo := by
  obtain ⟨id, hstat, hlink⟩ := h
  simp [firstLink, hstat, hlink]

/-- A scan goes past directories. -/
theorem HardDir.meet_append (h : HardDir F done) (todo : List JSString) :
    meet F [] (done ++ todo) = meet F done todo := by
  induction h generalizing todo with
  | nil => rfl
  | snoc _ _ hvisible hplain ih =>
    rw [List.append_assoc, ih, List.singleton_append, meet_cons_plain (by rwa [hvisible]), hvisible]

/-! ### Strings for paths -/

theorem absolute_snoc (done : List JSString) (c : JSString) :
    absolute (done ++ [c]) = dir done ++ c := by
  unfold absolute dir
  rw [List.cons_append]
  congr 1
  induction done with
  | nil => exact List.intercalate_singleton
  | cons d done ih =>
    rw [List.cons_append, join_cons, if_neg (by simp), ih]
    simp

theorem join_injective (hcs : ∀ c ∈ cs, slash ∉ c) {cs' : List JSString}
    (hcs' : ∀ c ∈ cs', slash ∉ c) (hne : cs ≠ []) (hne' : cs' ≠ []) (h : join cs = join cs') :
    cs = cs' := by
  have hsplit := List.splitOn_intercalate slash hcs hne
  have hsplit' := List.splitOn_intercalate slash hcs' hne'
  unfold join at h
  rw [← hsplit, h, hsplit']

/-- The path of a directory entry has only that many names. -/
theorem absolute_eq_entry (hdone : ∀ c ∈ done, slash ∉ c) (hc : slash ∉ c)
    (hcs : ∀ c ∈ cs, IsName c) (h : absolute cs = dir done ++ c) :
    cs = done ++ [c] ∨ cs = [] ∧ dir done ++ c = [slash] := by
  have hentry : ∀ x ∈ done ++ [c], slash ∉ x :=
    List.forall_mem_append.mpr ⟨hdone, List.forall_mem_singleton.mpr hc⟩
  by_cases hne : cs = []
  · refine .inr ⟨hne, ?_⟩
    rw [← h, hne]
    rfl
  · rw [← absolute_snoc] at h
    have hjoin := (List.cons_eq_cons.mp h).2
    exact .inl (join_injective (fun x hx => (hcs x hx).no_slash) hentry hne (by simp) hjoin)

/-- So it says which directory, and which name. -/
theorem dir_injective {done' : List JSString} {c' : JSString} (hdone : ∀ c ∈ done, slash ∉ c)
    (hc : slash ∉ c) (hdone' : ∀ c ∈ done', slash ∉ c) (hc' : slash ∉ c')
    (h : dir done ++ c = dir done' ++ c') : done = done' ∧ c = c' := by
  rw [← absolute_snoc, ← absolute_snoc] at h
  have hjoin := (List.cons_eq_cons.mp h).2
  have hentry : ∀ (ds : List JSString) (d : JSString), (∀ c ∈ ds, slash ∉ c) → slash ∉ d →
      ∀ x ∈ ds ++ [d], slash ∉ x := fun ds d hds hd =>
    List.forall_mem_append.mpr ⟨hds, List.forall_mem_singleton.mpr hd⟩
  have hlist := join_injective (hentry done c hdone hc) (hentry done' c' hdone' hc') (by simp)
    (by simp) hjoin
  exact List.append_inj' hlist rfl |>.imp_right List.singleton_inj.mp

end

/-! ### The loops -/

/-- The memo tables tell the truth about the links on the way from `orig`. -/
structure Memo (F : Files) (orig : List JSString) (v : Vars) : Prop where
  seenLinks : ∀ id target, v.seenLinks id = some target → ∃ inode, Met F orig inode ∧
    linkId (F.numbers inode) = id ∧ F.readlink inode = some target ∧ F.stat inode = true
  knownHard : ∀ base, v.knownHard base = true → Plain F base

structure Fresh (v : Vars) (cs : List JSString) : Prop where
  p : v.p = absolute cs
  pos : v.pos = 0
  current : v.current = []
  names : ∀ c ∈ cs, IsName c

/-- The loop has gone past `done` and has `todo` before it. -/
structure At (F : Files) (v : Vars) (done todo : List JSString) : Prop where
  left : v.p.drop v.pos = join todo
  current : todo ≠ [] → v.current = dir done
  names : ∀ c ∈ todo, IsName c
  hard : HardDir F done

section
variable {F : Files} {v : Vars} {orig cs done todo : List JSString} {c : JSString}

theorem At.pos_lt (h : At F v done todo) : v.pos < v.p.length ↔ todo ≠ [] := by
  rw [← Nat.not_le, ← List.drop_eq_nil_iff, h.left, join_eq_nil_iff fun c hc => (h.names c hc).part]

theorem drop_of_suffix {s rest : JSString} {n : ℕ} (h : rest <:+ s.drop n) :
    s.drop (s.length - rest.length) = rest :=
  (List.suffix_iff_eq_drop.mp (h.trans (List.drop_suffix n s))).symm

theorem join_suffix (c : JSString) (todo : List JSString) : join todo <:+ join (c :: todo) := by
  rw [join_cons]
  split_ifs with htodo
  · rw [htodo]
    exact List.nil_suffix
  · exact (List.suffix_cons slash _).trans (List.suffix_append c _)

/-- The slash at the beginning. -/
theorem Fresh.next (h : Fresh v cs) : v.next.base = [] ∧ At F v.next [] cs := by
  have hexec : exec (v.p.drop v.pos) = ⟨[], [slash], join cs⟩ := by
    rw [h.pos, List.drop_zero, h.p, exec_absolute h.names]
  refine ⟨?_, ?_, ?_, h.names, .nil⟩
  · simp [Vars.next, hexec, h.current]
  · have hsuffix : join cs <:+ v.p.drop v.pos := by
      rw [h.pos, List.drop_zero, h.p]
      exact List.suffix_cons slash _
    simp only [Vars.next, hexec]
    exact drop_of_suffix hsuffix
  · intro _
    simp [Vars.next, hexec, h.current, dir]

/-- The next name. -/
theorem At.next (h : At F v done (c :: todo)) :
    v.next.base = dir done ++ visible c ∧ v.next.previous = dir done ∧
      v.next.p.drop v.next.pos = join todo ∧
      (todo ≠ [] → v.next.current = dir (done ++ [visible c])) := by
  have hc := h.names c List.mem_cons_self
  have htodo : ∀ c ∈ todo, IsName c := fun c' hc' => h.names c' (List.mem_cons_of_mem _ hc')
  have hcurrent := h.current (List.cons_ne_nil c todo)
  have hexec := exec_join hc htodo
  rw [← h.left] at hexec
  refine ⟨?_, hcurrent, ?_, ?_⟩
  · simp [Vars.next, hexec, hcurrent]
  · have hsuffix : join todo <:+ v.p.drop v.pos := by
      rw [h.left]
      exact join_suffix c todo
    simp only [Vars.next, hexec]
    exact drop_of_suffix hsuffix
  · intro hne
    simp [Vars.next, hexec, hcurrent, hne, dir_append]

/-- A name that is not a link. -/
theorem At.past (h : At F v done (c :: todo)) (hplain : Plain F (dir done ++ visible c)) :
    At F v.next (done ++ [visible c]) todo := by
  obtain ⟨-, -, hleft, hcurrent⟩ := h.next
  have hslash := slash_not_mem_visible (h.names c List.mem_cons_self).no_slash
  exact ⟨hleft, hcurrent, fun c' hc' => h.names c' (List.mem_cons_of_mem _ hc'),
    h.hard.snoc hslash (visible_visible c) hplain⟩

theorem Memo.next (h : Memo F orig v) : Memo F orig v.next := ⟨h.seenLinks, h.knownHard⟩

theorem Memo.hard (h : Memo F orig v) (hplain : Plain F v.base) : Memo F orig v.hard := by
  refine ⟨h.seenLinks, fun base hbase => ?_⟩
  by_cases heq : base = v.base
  · rwa [heq]
  · have hold : v.knownHard base = true := by
      simpa [Vars.hard, Function.update_of_ne heq] using hbase
    exact h.knownHard base hold

theorem Memo.see (h : Memo F orig v) {inode : F.Inode} {target : JSString} (hmet : Met F orig inode)
    (hlink : F.readlink inode = some target) (hstat : F.stat inode = true) :
    Memo F orig { v with
      seenLinks := Function.update v.seenLinks (linkId (F.numbers inode)) (some target) } := by
  refine ⟨fun id target' hseen => ?_, h.knownHard⟩
  dsimp only at hseen
  by_cases heq : id = linkId (F.numbers inode)
  · rw [heq, Function.update_self] at hseen
    rw [← Option.some.inj hseen]
    exact ⟨inode, hmet, heq.symm, hlink, hstat⟩
  · rw [Function.update_of_ne heq] at hseen
    exact h.seenLinks id target' hseen

/-- What was read of a link with this key was read of this link. -/
theorem Memo.of_seenLinks (h : Memo F orig v) (hapart : Apart F orig) {inode : F.Inode}
    {target : JSString} (hmet : Met F orig inode)
    (hseen : v.seenLinks (linkId (F.numbers inode)) = some target) :
    F.readlink inode = some target ∧ F.stat inode = true := by
  obtain ⟨inode', hmet', hid, hlink, hstat⟩ := h.seenLinks _ target hseen
  obtain rfl := hapart inode' inode hmet' hmet ((linkId_eq_iff _ _).mp hid)
  exact ⟨hlink, hstat⟩

theorem Memo.of_seen (h : Memo F orig v) (hapart : Apart F orig) {inode : F.Inode}
    {target : JSString} (hmet : Met F orig inode)
    (hseen : v.seen (linkId (F.numbers inode)) = some target) :
    F.readlink inode = some target ∧ F.stat inode = true :=
  h.of_seenLinks hapart hmet (Option.filter_eq_some_iff.mp hseen).1

/-- The link is replaced, and the scan begins again. -/
theorem At.restart (h : At F v done (c :: todo)) (cwd : JSString) {w : Vars} (hp : w.p = v.next.p)
    (hpos : w.pos = v.next.pos) {resolvedLink : List JSString}
    (hnames : ∀ c ∈ resolvedLink, IsName c) :
    Fresh (w.restart cwd (absolute resolvedLink)) (resolvedLink ++ todo) := by
  obtain ⟨-, -, hleft, -⟩ := h.next
  have htodo : ∀ c ∈ todo, IsName c := fun c' hc' => h.names c' (List.mem_cons_of_mem _ hc')
  refine ⟨?_, rfl, rfl, ?_⟩
  · have hrest : resolve cwd [absolute resolvedLink, w.p.drop w.pos] =
        absolute (resolvedLink ++ todo) := by
      rw [hp, hpos, hleft, resolve_rest cwd hnames htodo]
    exact hrest
  · exact List.forall_mem_append.mpr ⟨hnames, htodo⟩

end

end NodeJS.Fs
