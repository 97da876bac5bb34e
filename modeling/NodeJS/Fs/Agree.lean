import NodeJS.Fs.Cached
import NodeJS.Fs.Tree

/-! `realpathSync` against `realpath`, with no cache. -/
namespace NodeJS.Fs
open NodeJS.Path Lib Relation

/-- The replacement of links comes to an end. On the way, a link that is met again leads to the
path that the last new one led to: `seen` are the links met so far, `last` is that path. -/
inductive Steady (F : Files) : List F.Inode → List JSString → List JSString → Prop
  | hard {seen : List F.Inode} {last cs : List JSString} (h : meet F [] cs = .hard) :
      Steady F seen last cs
  | missing {seen : List F.Inode} {last cs : List JSString} (h : meet F [] cs = .missing) :
      Steady F seen last cs
  | new {seen : List F.Inode} {last cs link rest : List JSString} {id : F.Inode} {base : JSString}
      (h : meet F [] cs = .link id base link rest) (hnew : id ∉ seen)
      (hrest : Steady F (id :: seen) link (link ++ rest)) : Steady F seen last cs
  | again {seen : List F.Inode} {last cs rest : List JSString} {id : F.Inode} {base : JSString}
      (h : meet F [] cs = .link id base last rest) (hseen : id ∈ seen)
      (hrest : Steady F seen last (last ++ rest)) : Steady F seen last cs

section
variable {F : Files} {seen : List F.Inode} {last cs orig : List JSString}
  {o : Option (List JSString)} {cwd : JSString}

theorem Steady.resolves (h : Steady F seen last cs) : ∃ o, Resolves F cs o := by
  induction h with
  | hard hmeet => exact ⟨_, .hard hmeet⟩
  | missing hmeet => exact ⟨_, .missing hmeet⟩
  | new hmeet _ _ ih =>
    obtain ⟨o, ho⟩ := ih
    exact ⟨o, .link ⟨_, _, _, _, hmeet, rfl⟩ ho⟩
  | again hmeet _ _ ih =>
    obtain ⟨o, ho⟩ := ih
    exact ⟨o, .link ⟨_, _, _, _, hmeet, rfl⟩ ho⟩

/-- With no cache, the loop starts over where a link is replaced. -/
theorem SyncJump.expands {done todo : List JSString} {c resolvedLink : JSString} {v : Vars}
    {x : Vars × JSString} (h : SyncJump F false cwd orig cs done c todo v resolvedLink x) :
    ∃ cs', Expands F cs cs' := by
  cases h with
  | known _ _ hshared => cases hshared
  | new _ hmeet => exact ⟨_, _, _, _, _, hmeet, rfl⟩
  | again _ hmeet => exact ⟨_, _, _, _, _, hmeet, rfl⟩

/-- Of the links on the way, `seenLinks` has the keys of these. -/
def Holds (F : Files) (orig : List JSString) (v : Vars) (seen : List F.Inode) : Prop :=
  ∀ id, Met F orig id → (v.seenLinks (linkId (F.numbers id)) ≠ none ↔ id ∈ seen)

theorem Holds.see {v w : Vars} {id : F.Inode} {target : JSString} (h : Holds F orig v seen)
    (hapart : Apart F orig) (hmet : Met F orig id)
    (hseen : w.seenLinks = Function.update v.seenLinks (linkId (F.numbers id)) (some target)) :
    Holds F orig w (id :: seen) := by
  intro id' hmet'
  rw [hseen, List.mem_cons]
  by_cases heq : id' = id
  · rw [heq, Function.update_self]
    exact ⟨fun _ => .inl rfl, fun _ => Option.some_ne_none target⟩
  · have hkey : linkId (F.numbers id') ≠ linkId (F.numbers id) := fun hkey =>
      heq (hapart id' id hmet' hmet ((linkId_eq_iff _ _).mp hkey))
    rw [Function.update_of_ne hkey, h id' hmet']
    exact (or_iff_right heq).symm

theorem Holds.see_again {v w : Vars} {id : F.Inode} {target : JSString} (h : Holds F orig v seen)
    (hapart : Apart F orig) (hmet : Met F orig id) (hin : id ∈ seen)
    (hseen : w.seenLinks = Function.update v.seenLinks (linkId (F.numbers id)) (some target)) :
    Holds F orig w seen := by
  intro id' hmet'
  rw [h.see hapart hmet hseen id' hmet', List.mem_cons]
  exact or_iff_right_of_imp fun heq => heq ▸ hin

/-- `resolvedLink` is right where it is used. -/
theorem Steady.finishes (h : Steady F seen last cs) (horig : ∀ c ∈ orig, IsName c)
    (hapart : Apart F orig) (hres : Resolves F cs o) {v : Vars} {resolvedLink : JSString}
    (hstart : Starting F false orig v cs)
    (hseen : Holds F orig v seen) (hlast : seen ≠ [] → resolvedLink = absolute last) :
    SyncFinishes F false cwd orig o (.inl (v, resolvedLink)) := by
  induction h generalizing v resolvedLink with
  | hard hmeet =>
    refine hstart.syncFinishes horig hapart hres fun w done c todo x hw _ hjump => ?_
    obtain ⟨cs', hexpands⟩ := hjump.expands
    exact absurd hexpands (not_expands_of_hard hmeet)
  | missing hmeet =>
    refine hstart.syncFinishes horig hapart hres fun w done c todo x hw _ hjump => ?_
    obtain ⟨cs', hexpands⟩ := hjump.expands
    exact absurd hexpands (not_expands_of_missing hmeet)
  | @new seen last cs link rest id base hmeet hnew hrest ih =>
    refine hstart.syncFinishes horig hapart hres fun w done c todo x hw _ hjump => ?_
    have hres' := hres.of_reached (.single ⟨_, _, _, _, hmeet, rfl⟩)
    have hmet : Met F orig id := ⟨_, hstart.reached, firstLink_of_meet hmeet⟩
    cases hjump with
    | known _ _ hshared => cases hshared
    | @new w' id' target value hstart' hmeet' _ hseen' =>
      obtain ⟨rfl, -, rfl, rfl⟩ := Found.link.inj (hmeet.symm.trans hmeet')
      rw [hw] at hseen'
      exact ih hres' hstart' (hseen.see hapart hmet hseen') fun _ => rfl
    | again _ hmeet' hold =>
      obtain ⟨rfl, -, rfl, rfl⟩ := Found.link.inj (hmeet.symm.trans hmeet')
      rw [hw] at hold
      exact absurd ((hseen id hmet).mp hold) hnew
  | @again seen last cs rest id base hmeet hin hrest ih =>
    refine hstart.syncFinishes horig hapart hres fun w done c todo x hw _ hjump => ?_
    have hexpands : Expands F cs (last ++ rest) := ⟨_, _, _, _, hmeet, rfl⟩
    have hres' := hres.of_reached (.single hexpands)
    have hmet : Met F orig id := ⟨_, hstart.reached, firstLink_of_meet hmeet⟩
    cases hjump with
    | known _ _ hshared => cases hshared
    | @new w' id' target value hstart' hmeet' hnew hseen' =>
      obtain ⟨rfl, -, rfl, rfl⟩ := Found.link.inj (hmeet.symm.trans hmeet')
      rw [hw] at hseen'
      exact ih hres' hstart' (hseen.see_again hapart hmet hin hseen') fun _ => rfl
    | again hstart' hmeet' =>
      obtain ⟨rfl, -, rfl, rfl⟩ := Found.link.inj (hmeet.symm.trans hmeet')
      obtain rfl := hlast (List.ne_nil_of_mem hin)
      refine ih hres' (hstart' last (meet_rest hmeet).2 (.single hexpands)) ?_ fun _ => rfl
      intro id' hmet'
      have hseen' := hseen id' hmet'
      rw [← hw] at hseen'
      exact hseen'

end

section
variable {F : Files} {cwd : Cwd} {p : JSString} {o : Option (List JSString)}

theorem sound_none : Sound F false none := ⟨rfl, nofun⟩

theorem realpath_alone (hapart : Apart F (start cwd p)) (hres : Resolves F (start cwd p) o) :
    Realpath F cwd.path p none (o.map absolute, none) := by
  have hends : Finishes F false cwd.path (start cwd p) o (.inl (enter (start cwd p) none)) :=
    realpath_finishes (isName_start cwd p) hapart hres _
      (enter_starting (isName_start cwd p) sound_none)
  obtain ⟨cache, hends, hcache⟩ := hends
  obtain rfl := hcache.eq_none
  exact realpath_of_miss rfl hends

theorem realpathSync_alone (h : Steady F [] [] (start cwd p)) (hapart : Apart F (start cwd p))
    (hres : Resolves F (start cwd p) o) :
    RealpathSync F cwd.path p none (o.map absolute, none) := by
  have hends : SyncFinishes F false cwd.path (start cwd p) o
      (.inl (enter (start cwd p) none, [])) :=
    h.finishes (isName_start cwd p) hapart hres (enter_starting (isName_start cwd p) sound_none)
      (fun id _ => by simp [enter]) fun hne => absurd rfl hne
  obtain ⟨cache, hends, hcache⟩ := hends
  obtain rfl := hcache.eq_none
  exact realpathSync_of_miss rfl hends

end

/-- Where the links that are met again lead where `resolvedLink` points, and no two links share a
key, both functions give the same string, or both fail. -/
theorem realpath_agree (F : Files) (cwd : Cwd) (p : JSString) (h : Steady F [] [] (start cwd p))
    (hapart : Apart F (start cwd p)) :
    ∃ r, RealpathSync F cwd.path p none (r, none) ∧ Realpath F cwd.path p none (r, none) := by
  obtain ⟨o, hres⟩ := h.resolves
  exact ⟨o.map absolute, realpathSync_alone h hapart hres, realpath_alone hapart hres⟩

/-- A directory `/b`, a link `/b/c` to the root and a link `/a` to `/b`. -/
def crossing : Tree where
  entries := [(js "a", .link (js "/b")), (js "b", .dir [(js "c", .link (js "/"))])]
  numbers := fun l => ⟨1, ([[], [js "a"], [js "b"]].idxOf l).toUInt64⟩
  maxSymlinks := 40

theorem realpath_agree_crossing : ∃ r,
    RealpathSync crossing.files (js "/") (js "a") none (r, none) ∧
      Realpath crossing.files (js "/") (js "a") none (r, none) := by
  have hlink : meet crossing.files [] [js "a"] = .link [js "a"] (js "/a") [js "b"] [] := by
    decide +kernel
  have hhard : meet crossing.files [] [js "b"] = .hard := by decide +kernel
  have hstart : start ⟨js "/", rfl⟩ (js "a") = [js "a"] := by decide +kernel
  apply realpath_agree crossing.files ⟨js "/", rfl⟩ (js "a")
  · rw [hstart]
    exact .new hlink List.not_mem_nil (.hard hhard)
  · rw [hstart]
    refine .of_mem [[js "a"]] (fun id hmet => ?_) (by decide +kernel)
    rcases met_of_link hlink hmet with rfl | hmet
    · exact List.mem_singleton_self _
    · exact absurd hmet (not_met_of_hard hhard)

/-- `/a/c/a` leads to `/b/c/a`, then to `/a`. There `realpathSync` still has the root in
`resolvedLink`. -/
theorem not_agree_crossing : ¬ ∀ (F : Files) (cwd : Cwd) (p : JSString),
    ∃ r, RealpathSync F cwd.path p none (r, none) ∧ Realpath F cwd.path p none (r, none) := by
  intro h
  obtain ⟨r, hsync, hasync⟩ := h crossing.files ⟨js "/", rfl⟩ (js "/a/c/a")
  have hsync' : (loop (realpathSyncRound crossing.files (js "/") (resolve (js "/") [js "/a/c/a"])) 12
      ((begin (js "/") (js "/a/c/a") none).map (·, []) id)).map Prod.fst =
        some (some (js "/")) := by decide +kernel
  have hasync' : (loop (realpathRound crossing.files (js "/") (resolve (js "/") [js "/a/c/a"])) 12
      (begin (js "/") (js "/a/c/a") none)).map Prod.fst =
        some (some (js "/b")) := by decide +kernel
  obtain ⟨r₁, hloop₁, hr₁⟩ := Option.map_eq_some_iff.mp hsync'
  obtain ⟨r₂, hloop₂, hr₂⟩ := Option.map_eq_some_iff.mp hasync'
  have h₁ := hsync.unique (ends_of_loop hloop₁)
  have h₂ := hasync.unique (ends_of_loop hloop₂)
  rw [← h₁] at hr₁
  rw [← h₂, hr₁] at hr₂
  exact absurd (Option.some.inj hr₂) (by decide +kernel)

end NodeJS.Fs
