import NodeJS.Fs.Tree
import Mathlib.Logic.Relation

/-! Which links `realpathSync` and `realpath` tell apart by the keys of `seenLinks`. -/
namespace NodeJS.Fs.SeenLinks
open NodeJS.Path Relation

section
variable (F : Files)

/-- The states of `realpathSync(p, cache)` at the head of the loop. -/
def SyncReached (cwd p : JSString) (cache : Option Cache) (v : Vars) : Prop :=
  ∃ v₀ resolvedLink, begin cwd p cache = .inl v₀ ∧
    ReflTransGen (fun s s' => realpathSyncRound F cwd (resolve cwd [p]) s = .inl s')
      (v₀, []) (v, resolvedLink)

/-- The states of `realpath(p, cache, cb)` where `LOOP` is called. -/
def Reached (cwd p : JSString) (cache : Option Cache) (v : Vars) : Prop :=
  ∃ v₀, begin cwd p cache = .inl v₀ ∧
    ReflTransGen (fun s s' => realpathRound F cwd (resolve cwd [p]) s = .inl s') v₀ v

/-- In this round, a link is found by `lstat`. -/
structure Meets (v : Vars) (inode : F.Inode) (target : JSString) : Prop where
  pos : v.pos < v.p.length
  skips : ¬ v.next.Skips
  get : v.next.get v.next.base = none
  lstat : F.lstat v.next.base = some inode
  readlink : F.readlink inode = some target

def MetIn (reached : Vars → Prop) (inode : F.Inode) : Prop :=
  ∃ v target, reached v ∧ Meets F v inode target

/-- Different links have different keys, and what is found under the key of a link is its target. -/
structure ToldApart (reached : Vars → Prop) : Prop where
  ids : ∀ a b, MetIn F reached a → MetIn F reached b → a ≠ b →
    linkId (F.numbers a) ≠ linkId (F.numbers b)
  own : ∀ v inode target t, reached v → Meets F v inode target →
    v.seenLinks (linkId (F.numbers inode)) = some t → t = target

/-- No two links agree in the lower halves of their numbers. -/
def Differ (reached : Vars → Prop) : Prop :=
  ∀ a b, MetIn F reached a → MetIn F reached b → a ≠ b → ¬ SameLow (F.numbers a) (F.numbers b)

/-- What a round does to `seenLinks`. -/
def Remembers (v v' : Vars) : Prop :=
  v'.seenLinks = v.seenLinks ∨ ∃ inode target, Meets F v inode target ∧
    v'.seenLinks = Function.update v.seenLinks (linkId (F.numbers inode)) (some target)

end

section
variable {F : Files} {cwd original p : JSString} {cache : Option Cache} {v v' : Vars}

theorem remembers_sync {r r' : JSString}
    (h : realpathSyncRound F cwd original (v, r) = .inl (v', r')) : Remembers F v v' := by
  unfold realpathSyncRound at h
  dsimp only at h
  split_ifs at h with hpos hskips
  · cases h
    exact Or.inl rfl
  · split at h
    · cases h
      exact Or.inl rfl
    · rename_i hget
      split at h
      · cases h
      · rename_i inode hlstat
        split at h
        · cases h
          exact Or.inl rfl
        · rename_i target hlink
          split at h
          · cases h
            exact Or.inl rfl
          · split_ifs at h
            cases h
            exact Or.inr ⟨inode, target, ⟨hpos, hskips, hget, hlstat, hlink⟩, rfl⟩

theorem remembers_round (h : realpathRound F cwd original v = .inl v') : Remembers F v v' := by
  unfold realpathRound at h
  dsimp only at h
  split_ifs at h with hpos hskips
  · cases h
    exact Or.inl rfl
  · split at h
    · cases h
      exact Or.inl rfl
    · rename_i hget
      split at h
      · cases h
      · rename_i inode hlstat
        split at h
        · cases h
          exact Or.inl rfl
        · rename_i target hlink
          split at h
          · cases h
            exact Or.inl rfl
          · split_ifs at h
            cases h
            exact Or.inr ⟨inode, target, ⟨not_le.mp hpos, hskips, hget, hlstat, hlink⟩, rfl⟩

/-- What is remembered was read from a link that was met. -/
theorem met_of_remembered {σ : Type} (π : σ → Vars) {next : σ → σ → Prop} {s₀ s : σ}
    (hnext : ∀ s s', next s s' → Remembers F (π s) (π s'))
    (h₀ : (π s₀).seenLinks = fun _ => none) (h : ReflTransGen next s₀ s) {id t : JSString}
    (hid : (π s).seenLinks id = some t) :
    ∃ s' inode, ReflTransGen next s₀ s' ∧ Meets F (π s') inode t ∧
      linkId (F.numbers inode) = id := by
  induction h with
  | refl =>
    rw [h₀] at hid
    cases hid
  | @tail s s' hs hstep ih =>
    rcases hnext s s' hstep with heq | ⟨inode, target, hmeets, heq⟩
    · rw [heq] at hid
      exact ih hid
    · rw [heq] at hid
      by_cases hkey : id = linkId (F.numbers inode)
      · rw [hkey, Function.update_self] at hid
        obtain rfl := Option.some.inj hid
        exact ⟨s, inode, hs, hmeets, hkey.symm⟩
      · rw [Function.update_of_ne hkey] at hid
        exact ih hid

/-- Keys that are different are enough. -/
theorem toldApart_iff {reached : Vars → Prop}
    (hmet : ∀ v id t, reached v → v.seenLinks id = some t →
      ∃ v' inode, reached v' ∧ Meets F v' inode t ∧ linkId (F.numbers inode) = id) :
    ToldApart F reached ↔ Differ F reached := by
  constructor
  · intro h a b ha hb hab hlow
    exact h.ids a b ha hb hab ((linkId_eq_iff _ _).mpr hlow)
  · intro h
    have hids : ∀ a b, MetIn F reached a → MetIn F reached b → a ≠ b →
        linkId (F.numbers a) ≠ linkId (F.numbers b) := by
      intro a b ha hb hab heq
      exact h a b ha hb hab ((linkId_eq_iff _ _).mp heq)
    refine ⟨hids, fun v inode target t hv hmeets hseen => ?_⟩
    obtain ⟨v', inode', hv', hmeets', hkey⟩ := hmet v _ t hv hseen
    obtain rfl : inode' = inode := by
      by_contra hne
      exact hids inode' inode ⟨v', t, hv', hmeets'⟩ ⟨v, target, hv, hmeets⟩ hne hkey
    exact Option.some.inj (hmeets'.readlink.symm.trans hmeets.readlink)

theorem seenLinks_of_begin {v₀ : Vars} (h : begin cwd p cache = .inl v₀) :
    v₀.seenLinks = fun _ => none := by
  unfold begin at h
  dsimp only at h
  split at h
  · cases h
  · obtain rfl := Sum.inl.inj h
    rfl

end

section
variable (F : Files) (cwd p : JSString) (cache : Option Cache)

/-- Both functions tell the links of a call apart if and only if no two of them agree in the lower
halves of their device and inode numbers. -/
theorem seenLinks_iff :
    (ToldApart F (SyncReached F cwd p cache) ↔ Differ F (SyncReached F cwd p cache)) ∧
      (ToldApart F (Reached F cwd p cache) ↔ Differ F (Reached F cwd p cache)) := by
  constructor
  · refine toldApart_iff ?_
    rintro v key t ⟨v₀, r, hbegin, hrun⟩ hseen
    obtain ⟨⟨v', r'⟩, inode, hrun', hmeets, hkey⟩ :=
      met_of_remembered Prod.fst (fun _ _ hs => remembers_sync hs) (seenLinks_of_begin hbegin)
        hrun hseen
    exact ⟨v', inode, ⟨v₀, r', hbegin, hrun'⟩, hmeets, hkey⟩
  · refine toldApart_iff ?_
    rintro v key t ⟨v₀, hbegin, hrun⟩ hseen
    obtain ⟨v', inode, hrun', hmeets, hkey⟩ :=
      met_of_remembered id (fun _ _ hs => remembers_round hs) (seenLinks_of_begin hbegin)
        hrun hseen
    exact ⟨v', inode, ⟨v₀, hbegin, hrun'⟩, hmeets, hkey⟩

instance (v : Vars) (inode : F.Inode) (target : JSString) : Decidable (Meets F v inode target) :=
  decidable_of_iff (v.pos < v.p.length ∧ ¬ v.next.Skips ∧ v.next.get v.next.base = none ∧
      F.lstat v.next.base = some inode ∧ F.readlink inode = some target)
    ⟨fun ⟨h₁, h₂, h₃, h₄, h₅⟩ => ⟨h₁, h₂, h₃, h₄, h₅⟩,
      fun ⟨h₁, h₂, h₃, h₄, h₅⟩ => ⟨h₁, h₂, h₃, h₄, h₅⟩⟩

end

theorem metIn_of_iterate {F : Files} {cwd p : JSString} {cache : Option Cache} {v₀ : Vars}
    {inode : F.Inode} (hbegin : begin cwd p cache = .inl v₀) (n : ℕ) (target : JSString)
    (h : ((Sum.elim (realpathRound F cwd (resolve cwd [p])) .inr)^[n] (.inl v₀)).elim
      (fun v => decide (Meets F v inode target)) (fun _ => false) = true) :
    MetIn F (Reached F cwd p cache) inode := by
  have hreached : ∀ n v, (Sum.elim (realpathRound F cwd (resolve cwd [p])) .inr)^[n] (.inl v₀) =
      .inl v → Reached F cwd p cache v := by
    intro n
    induction n with
    | zero =>
      intro v hv
      obtain rfl := Sum.inl.inj hv
      exact ⟨v₀, hbegin, .refl⟩
    | succ n ih =>
      intro v hv
      rw [Function.iterate_succ_apply'] at hv
      generalize hx : (Sum.elim (realpathRound F cwd (resolve cwd [p])) .inr)^[n] (.inl v₀) = x at hv
      cases x with
      | inr o => cases hv
      | inl v' =>
        obtain ⟨_, hbegin', hrun⟩ := ih v' hx
        exact ⟨_, hbegin', hrun.tail hv⟩
  generalize hx : (Sum.elim (realpathRound F cwd (resolve cwd [p])) .inr)^[n] (.inl v₀) = x at h
  cases x with
  | inr o => cases h
  | inl v => exact ⟨v, target, hreached n v hx, of_decide_eq_true h⟩

/-- A link `/a` to `/b` and a link `/b` to a directory `/c`. The inode numbers of the links are
2^32 apart. -/
def chained : Tree where
  entries := [(js "a", .link (js "/b")), (js "b", .link (js "/c")), (js "c", .dir [])]
  numbers := fun l => ⟨1, if l = [js "a"] then 1 else if l = [js "b"] then 0x100000001 else 2⟩
  maxSymlinks := 40

/-- On the way from `/a` the second link is taken for the first. -/
theorem seenLinks_mixed : ¬ ∀ (F : Files) cwd p cache, ToldApart F (Reached F cwd p cache) := by
  intro h
  have hfirst : MetIn chained.files (Reached chained.files (js "/") (js "/a") none) [js "a"] :=
    metIn_of_iterate rfl 1 (js "/b") (by decide +kernel)
  have hsecond : MetIn chained.files (Reached chained.files (js "/") (js "/a") none) [js "b"] :=
    metIn_of_iterate rfl 3 (js "/c") (by decide +kernel)
  have hne : ([js "a"] : List JSString) ≠ [js "b"] := by decide +kernel
  exact (h chained.files (js "/") (js "/a") none).ids _ _ hfirst hsecond hne (by decide +kernel)

end NodeJS.Fs.SeenLinks
