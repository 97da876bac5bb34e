import NodeJS.Fs.Agree

/-! Calls of `realpathSync` and `realpath` that share a cache. -/
namespace NodeJS.Fs
open NodeJS.Path Lib Relation

inductive Call
  | realpathSync (p : JSString)
  | realpath (p : JSString)

def Call.p : Call → JSString
  | .realpathSync p => p
  | .realpath p => p

def Call.Returns (F : Files) (cwd : JSString) (cache : Option Cache) : Call → Outcome → Prop
  | .realpathSync p => RealpathSync F cwd p cache
  | .realpath p => Realpath F cwd p cache

/-- On the way, no link is met under two names. -/
def OneName (F : Files) (cs : List JSString) : Prop :=
  ∀ cs₁ cs₂ id base₁ base₂ link₁ link₂ rest₁ rest₂, ReflTransGen (Expands F) cs cs₁ →
    ReflTransGen (Expands F) cs cs₂ → meet F [] cs₁ = .link id base₁ link₁ rest₁ →
    meet F [] cs₂ = .link id base₂ link₂ rest₂ → base₁ = base₂

/-- The replacement of links comes to an end, no two links on the way share a key, and what the
cache has for the whole path is free of links. For `realpathSync`, this is also a path with which it
gets along when it has no cache. -/
structure Call.Good (F : Files) (cwd : Cwd) (cache : Cache) (call : Call) : Prop where
  resolves : ∃ o, Resolves F (start cwd call.p) o
  apart : Apart F (start cwd call.p)
  final : ∀ val, cache (absolute (start cwd call.p)) = some val → meet F [] (pieces val) = .hard
  steady : ∀ p, call = .realpathSync p → Steady F [] [] (start cwd p) ∧ OneName F (start cwd p)

section
variable {F : Files} {orig cs : List JSString} {o : Option (List JSString)} {cwd : JSString}

/-- The links that were read are in the cache. -/
def Noted (F : Files) (orig : List JSString) (v : Vars) : Prop :=
  ∀ key, v.seenLinks key ≠ none → ∃ id cs base link rest, linkId (F.numbers id) = key ∧
    ReflTransGen (Expands F) orig cs ∧ meet F [] cs = .link id base link rest ∧ v.get base ≠ none

theorem Noted.mono {v w : Vars} (h : Noted F orig v) (hseen : w.seenLinks = v.seenLinks)
    (hcache : ∀ key, v.get key ≠ none → w.get key ≠ none) : Noted F orig w := by
  intro key hkey
  rw [hseen] at hkey
  obtain ⟨id, cs, base, link, rest, hid, hreached, hmeet, hget⟩ := h key hkey
  exact ⟨id, cs, base, link, rest, hid, hreached, hmeet, hcache base hget⟩

/-- With a cache `realpathSync` has no use for a `resolvedLink` that it did not just set. -/
theorem realpathSync_finishes (horig : ∀ c ∈ orig, IsName c) (hapart : Apart F orig)
    (hone : OneName F orig) (hres : Resolves F cs o) :
    ∀ (v : Vars) resolvedLink, Starting F true orig v cs →
      Noted F orig v → SyncFinishes F true cwd orig o (.inl (v, resolvedLink)) := by
  refine Resolves.strong_induction
    (P := fun cs => ∀ (v : Vars) resolvedLink, Starting F true orig v cs → Noted F orig v →
      SyncFinishes F true cwd orig o (.inl (v, resolvedLink))) ?_ hres
  intro cs hres ih v resolvedLink hstart hnoted
  refine hstart.syncFinishes horig hapart hres fun u done c todo x hseen hcache hjump => ?_
  have hnoted' := hnoted.mono hseen hcache
  cases hjump with
  | known hstart' hfurther _ hseen' hcache' =>
    exact ih _ hfurther _ _ hstart' (hnoted'.mono hseen' hcache')
  | @new w id target value hstart' hmeet hnew hseen' hcache' hput =>
    refine ih _ (.single ⟨_, _, _, _, hmeet, rfl⟩) _ _ hstart' fun key hkey => ?_
    by_cases heq : key = linkId (F.numbers id)
    · exact ⟨id, cs, _, _, _, heq.symm, hstart.reached, hmeet, hput rfl⟩
    · rw [hseen', Function.update_of_ne heq] at hkey
      obtain ⟨id', cs', base, link, rest, hid', hreached, hmeet', hget⟩ := hnoted' key hkey
      exact ⟨id', cs', base, link, rest, hid', hreached, hmeet', hcache' base hget⟩
  | @again id value _ hmeet hold hget =>
    obtain ⟨id', cs', base, link, rest, hid', hreached, hmeet', hget'⟩ := hnoted' _ hold
    obtain rfl := hapart id' id ⟨_, hreached, firstLink_of_meet hmeet'⟩
      ⟨_, hstart.reached, firstLink_of_meet hmeet⟩ ((linkId_eq_iff _ _).mp hid')
    obtain rfl := hone _ _ _ _ _ _ _ _ _ hreached hstart.reached hmeet' hmeet
    exact absurd hget hget'

end

section
variable {F : Files} {cwd : Cwd} {cache : Cache} {call : Call}

/-- What a call that finds its path in the cache returns is where the path ends. -/
theorem Call.Good.hit (h : call.Good F cwd cache) (hsound : Sound F true (some cache))
    {val : JSString} (hget : cache (absolute (start cwd call.p)) = some val) :
    ∃ value, val = absolute value ∧ Resolves F (start cwd call.p) (some value) := by
  have hnames := isName_start cwd call.p
  obtain ⟨value, rfl, hvalue⟩ := (hsound.entry cache rfl _ _ hget).of_path hnames
  have hend := h.final _ hget
  rw [pieces_absolute (names_of_reached hvalue hnames)] at hend
  exact ⟨value, rfl, .of_hard hvalue hend⟩

/-- A call and the same call with no cache. -/
theorem Call.Good.returns (h : call.Good F cwd cache) (hsound : Sound F true (some cache)) :
    ∃ r cache', call.Returns F cwd.path (some cache) (r, cache') ∧
      call.Returns F cwd.path none (r, none) ∧ Sound F true cache' := by
  have hnames := isName_start cwd call.p
  obtain ⟨o, hres⟩ := h.resolves
  cases hget : cache (absolute (start cwd call.p)) with
  | some val =>
    obtain ⟨value, rfl, hvalue⟩ := h.hit hsound hget
    cases call with
    | realpathSync p => exact ⟨_, _, realpathSync_of_hit hget,
        realpathSync_alone (h.steady p rfl).1 h.apart hvalue, hsound⟩
    | realpath p => exact ⟨_, _, realpath_of_hit hget, realpath_alone h.apart hvalue, hsound⟩
  | none =>
    have hstart := enter_starting hnames hsound
    cases call with
    | realpathSync p =>
      obtain ⟨hsteady, hone⟩ := h.steady p rfl
      have hends : SyncFinishes F true cwd.path (start cwd p) o (.inl (_, [])) :=
        realpathSync_finishes hnames h.apart hone hres _ [] hstart fun id hid => absurd rfl hid
      obtain ⟨cache', hends, hcache'⟩ := hends
      exact ⟨_, cache', realpathSync_of_miss hget hends, realpathSync_alone hsteady h.apart hres,
        hcache'⟩
    | realpath p =>
      have hends : Finishes F true cwd.path (start cwd p) o (.inl _) :=
        realpath_finishes hnames h.apart hres _ hstart
      obtain ⟨cache', hends, hcache'⟩ := hends
      exact ⟨_, cache', realpath_of_miss hget hends, realpath_alone h.apart hres, hcache'⟩

end

/-! ### Sequences of calls -/

/-- A call, from one content of the cache to the next. -/
def Calls (F : Files) (cwd : Cwd) (ok : Cache → Call → Prop) (cache cache' : Cache) : Prop :=
  ∃ call r, ok cache call ∧ call.Returns F cwd.path (some cache) (r, some cache')

theorem Call.Returns.unique {F : Files} {cwd : JSString} {cache : Option Cache} {call : Call}
    {r r' : Outcome} (h : call.Returns F cwd cache r) (h' : call.Returns F cwd cache r') : r = r' := by
  cases call with
  | realpathSync p => exact Ends.unique h h'
  | realpath p => exact Ends.unique h h'

end NodeJS.Fs
