import NodeJS.Fs.Scan

/-! `realpath` with a cache whose entries are right. -/
namespace NodeJS.Fs
open NodeJS.Path Lib Relation

/-! ### Entries -/

/-- What the cache may say of a string: that it is no link, that it is one that leads to some path
on the way to where it ends, or that it is a path with all links replaced. The entry that
`realpath` makes under `"undefined"` says nothing. -/
inductive Entry (F : Files) : JSString → JSString → Prop
  | undefined (value : JSString) : Entry F (js "undefined") value
  | hard {done : List JSString} {c : JSString} (hdone : HardDir F done) (hslash : slash ∉ c)
      (hvisible : visible c = c) (hplain : Plain F (dir done ++ c)) :
      Entry F (dir done ++ c) (dir done ++ c)
  | link {done : List JSString} {c : JSString} {id : F.Inode} {target : JSString}
      {value : List JSString} (hdone : HardDir F done) (hslash : slash ∉ c)
      (hvisible : visible c = c) (hfound : F.lstat (dir done ++ c) = some id)
      (hlink : F.readlink id = some target) (hstat : F.stat id = true)
      (hvalue : ReflTransGen (Expands F) (resolved (pieces (dir done)) target) value) :
      Entry F (dir done ++ c) (absolute value)
  | final {cs value : List JSString} (hcs : ∀ c ∈ cs, IsName c)
      (hvalue : Resolves F cs (some value)) : Entry F (absolute cs) (absolute value)

section
variable {F : Files} {cs done value : List JSString} {c : JSString} {val : JSString}

theorem absolute_ne_undefined (cs : List JSString) : absolute cs ≠ js "undefined" := by
  intro h
  have hhead : some slash = (js "undefined").head? := congrArg List.head? h
  exact absurd hhead (by decide +kernel)

theorem absolute_injective {cs' : List JSString} (hcs : ∀ c ∈ cs, IsName c)
    (hcs' : ∀ c ∈ cs', IsName c) (h : absolute cs = absolute cs') : cs = cs' := by
  rw [← pieces_absolute hcs, h, pieces_absolute hcs']

/-- Where a path ends no link is left. -/
theorem Resolves.some_reached (h : Resolves F cs (some value)) :
    ReflTransGen (Expands F) cs value ∧ meet F [] value = .hard := by
  generalize ho : some value = o at h
  induction h with
  | hard hmeet =>
    obtain rfl := Option.some.inj ho
    exact ⟨.refl, hmeet⟩
  | missing => cases ho
  | link hexpands _ ih =>
    obtain ⟨hreached, hmeet⟩ := ih ho
    exact ⟨.head hexpands hreached, hmeet⟩

theorem Resolves.of_hard (h : ReflTransGen (Expands F) cs value) (hmeet : meet F [] value = .hard) :
    Resolves F cs (some value) :=
  (Resolves.hard hmeet).reach h

/-- What is met under a directory. -/
theorem HardDir.meet_entry (hdone : HardDir F done) (hvisible : visible c = c) :
    (Plain F (dir done ++ c) ∧ meet F [] (done ++ [c]) = .hard) ∨
      meet F [] (done ++ [c]) = .missing ∨
      ∃ id target, F.lstat (dir done ++ c) = some id ∧ F.readlink id = some target ∧
        F.stat id = true ∧
        meet F [] (done ++ [c]) =
          .link id (dir done ++ c) (resolved (pieces (dir done)) target) [] := by
  rw [hdone.meet_append [c]]
  unfold meet
  rw [hvisible]
  cases hfound : F.lstat (dir done ++ c) with
  | none => exact .inr (.inl rfl)
  | some id =>
    cases hlink : F.readlink id with
    | none => exact .inl ⟨⟨id, hfound, hlink⟩, by simp [hlink, meet]⟩
    | some target =>
      cases hstat : F.stat id with
      | false => exact .inr (.inl (by simp [hlink, hstat]))
      | true => exact .inr (.inr ⟨id, target, rfl, hlink, hstat, by simp [hlink, hstat]⟩)

/-- The entry for a directory entry that the scan has come to. -/
theorem Entry.of_base (hdone : HardDir F done) (hslash : slash ∉ c) (hvisible : visible c = c)
    (h : Entry F (dir done ++ c) val) :
    Plain F (dir done ++ c) ∧ val = dir done ++ c ∨
      ∃ id target value, F.lstat (dir done ++ c) = some id ∧ F.readlink id = some target ∧
        F.stat id = true ∧ val = absolute value ∧
        ReflTransGen (Expands F) (resolved (pieces (dir done)) target) value := by
  generalize hkey : dir done ++ c = key at h
  cases h with
  | undefined => exact absurd ((absolute_snoc done c).trans hkey) (absolute_ne_undefined _)
  | hard hdone' hslash' hvisible' hplain =>
    obtain ⟨rfl, rfl⟩ := dir_injective hdone.no_slash hslash hdone'.no_slash hslash' hkey
    exact .inl ⟨hplain, rfl⟩
  | link hdone' hslash' hvisible' hfound hlink hstat hvalue =>
    obtain ⟨rfl, rfl⟩ := dir_injective hdone.no_slash hslash hdone'.no_slash hslash' hkey
    exact .inr ⟨_, _, _, hfound, hlink, hstat, rfl, hvalue⟩
  | @final cs value hcs hvalue =>
    rcases absolute_eq_entry hdone.no_slash hslash hcs hkey.symm with rfl | ⟨rfl, hroot⟩
    · rw [← hkey]
      rcases hdone.meet_entry hvisible with ⟨hplain, hmeet⟩ | hmissing |
        ⟨id, target, hfound, hlink, hstat, hmeet⟩
      · have hsame : value = done ++ [c] := Option.some.inj (hvalue.unique (.hard hmeet))
        rw [hsame, absolute_snoc]
        exact .inl ⟨hplain, rfl⟩
      · cases hvalue.unique (.missing hmissing)
      · have hexpands : Expands F (done ++ [c]) (resolved (pieces (dir done)) target) :=
          ⟨id, dir done ++ c, _, [], hmeet, (List.append_nil _).symm⟩
        refine .inr ⟨id, target, value, hfound, hlink, hstat, rfl, ?_⟩
        exact (hvalue.of_reached (.single hexpands)).some_reached.1
    · have hsame : value = [] := Option.some.inj (hvalue.unique (.hard rfl))
      rw [hsame]
      exact .inl ⟨F.root, rfl⟩

/-- The entry for a whole path. -/
theorem Entry.of_path (hcs : ∀ c ∈ cs, IsName c) (h : Entry F (absolute cs) val) :
    ∃ value, val = absolute value ∧ ReflTransGen (Expands F) cs value := by
  generalize hkey : absolute cs = key at h
  cases h with
  | undefined => exact absurd hkey (absolute_ne_undefined cs)
  | @hard done c hdone hslash hvisible hplain => exact ⟨cs, hkey.symm, .refl⟩
  | @link done c id target value hdone hslash hvisible hfound hlink hstat hvalue =>
    refine ⟨value, rfl, ?_⟩
    rcases absolute_eq_entry hdone.no_slash hslash hcs hkey with rfl | ⟨rfl, hroot⟩
    · have hmeet : meet F [] (done ++ [c]) =
          .link id (dir done ++ c) (resolved (pieces (dir done)) target) [] := by
        rw [hdone.meet_append [c]]
        simp [meet, hvisible, hfound, hlink, hstat]
      exact .head ⟨_, _, _, _, hmeet, (List.append_nil _).symm⟩ hvalue
    · obtain ⟨id', hfound', hlink'⟩ := F.root
      rw [hroot, hfound'] at hfound
      rw [Option.some.inj hfound, hlink] at hlink'
      cases hlink'
  | @final cs' value hcs' hvalue =>
    obtain rfl := absolute_injective hcs hcs' hkey
    exact ⟨value, rfl, hvalue.some_reached.1⟩

end

/-- A cache, if there is one, with such entries. -/
structure Sound (F : Files) (shared : Bool) (cache : Option Cache) : Prop where
  isSome : cache.isSome = shared
  entry : ∀ c, cache = some c → ∀ key val, c key = some val → Entry F key val

theorem Sound.eq_none {F : Files} {cache : Option Cache} (h : Sound F false cache) :
    cache = none := by
  rw [← Option.isNone_iff_eq_none, ← Option.isSome_eq_false_iff]
  exact h.isSome

theorem Sound.put {F : Files} {shared : Bool} {v : Vars} (h : Sound F shared v.cache)
    {key val : JSString} (hentry : Entry F key val) : Sound F shared (v.put key val).cache := by
  refine ⟨(Option.isSome_map ..).trans h.isSome, fun c hc key' val' hval => ?_⟩
  obtain ⟨c', hc', rfl⟩ := Option.map_eq_some_iff.mp hc
  by_cases heq : key' = key
  · subst heq
    rw [Function.update_self] at hval
    rwa [← Option.some.inj hval]
  · rw [Function.update_of_ne heq] at hval
    exact h.entry c' hc' key' val' hval

theorem Sound.get {F : Files} {shared : Bool} {v : Vars} (h : Sound F shared v.cache)
    {key val : JSString} (hget : v.get key = some val) : Entry F key val := by
  obtain ⟨c, hc, hval⟩ := Option.bind_eq_some_iff.mp hget
  exact h.entry c hc key val hval

/-! ### Rounds -/

/-- The loop begins with `cs`, some way down from `orig`. -/
structure Starting (F : Files) (shared : Bool) (orig : List JSString) (v : Vars)
    (cs : List JSString) : Prop where
  fresh : Fresh v cs
  memo : Memo F orig v
  cache : Sound F shared v.cache
  reached : ReflTransGen (Expands F) orig cs

/-- The loop is at `todo`, and has met no link in `done`. -/
structure Scanning (F : Files) (shared : Bool) (orig : List JSString) (v : Vars)
    (cs done todo : List JSString) : Prop where
  here : At F v done todo
  memo : Memo F orig v
  p : v.p = absolute cs
  meets : meet F [] cs = meet F done todo
  links : firstLink F [] cs = firstLink F done todo
  cache : Sound F shared v.cache
  reached : ReflTransGen (Expands F) orig cs

section
variable {F : Files} {shared : Bool} {orig cs done todo : List JSString} {v : Vars} {c : JSString}
  {o : Option (List JSString)} {cwd : JSString}

theorem Starting.next (h : Starting F shared orig v cs) :
    v.next.Skips ∧ Scanning F shared orig v.next cs [] cs := by
  obtain ⟨hbase, hat⟩ := h.fresh.next
  exact ⟨.inl hbase, hat, h.memo.next, h.fresh.p, rfl, rfl, h.cache, h.reached⟩

namespace Scanning
variable (h : Scanning F shared orig v cs done (c :: todo))
include h

theorem slash_not_mem : slash ∉ visible c :=
  slash_not_mem_visible (h.here.names c List.mem_cons_self).no_slash

/-- A link that is found here is one on the way. -/
theorem met {id : F.Inode} {target : JSString} (hfound : F.lstat (dir done ++ visible c) = some id)
    (hlink : F.readlink id = some target) : Met F orig id := by
  refine ⟨cs, h.reached, ?_⟩
  rw [h.links]
  simp [firstLink, hfound, hlink]

theorem meet_link {id : F.Inode} {target : JSString}
    (hfound : F.lstat (dir done ++ visible c) = some id) (hlink : F.readlink id = some target)
    (hstat : F.stat id = true) :
    meet F [] cs =
      .link id (dir done ++ visible c) (resolved (pieces (dir done)) target) todo := by
  rw [h.meets]
  simp [meet, hfound, hlink, hstat]

/-- The replacement of a link that is met here. -/
theorem expands {id : F.Inode} {target : JSString}
    (hfound : F.lstat (dir done ++ visible c) = some id) (hlink : F.readlink id = some target)
    (hstat : F.stat id = true) : Expands F cs (resolved (pieces (dir done)) target ++ todo) :=
  ⟨id, dir done ++ visible c, _, todo, h.meet_link hfound hlink hstat, rfl⟩

/-- A link cannot lead back to itself, since the resolution ends. -/
theorem value_ne_base (hres : Resolves F cs o) {id : F.Inode} {target : JSString}
    {value : List JSString} (hfound : F.lstat (dir done ++ visible c) = some id)
    (hlink : F.readlink id = some target) (hstat : F.stat id = true)
    (hvalue : ReflTransGen (Expands F) (resolved (pieces (dir done)) target) value) :
    absolute value ≠ dir done ++ visible c := by
  intro heq
  have hexpands := h.expands hfound hlink hstat
  have hnames := names_of_reached hvalue (isName_resolved (pieces_no_slash _) target)
  rcases absolute_eq_entry h.here.hard.no_slash h.slash_not_mem hnames heq with rfl | ⟨rfl, hroot⟩
  · have hreached := reached_append hvalue todo
    have hmeet : meet F [] (done ++ [visible c] ++ todo) = meet F [] cs := by
      rw [List.append_assoc, h.here.hard.meet_append, h.meets]
      simp [meet]
    have hagain : Expands F (done ++ [visible c] ++ todo)
        (resolved (pieces (dir done)) target ++ todo) := by
      obtain ⟨id', base, resolvedLink, rest, hlink', hrest⟩ := hexpands
      exact ⟨id', base, resolvedLink, rest, hmeet.trans hlink', hrest⟩
    exact (hres.of_reached (.single hexpands)).acyclic (TransGen.tail' hreached hagain)
  · obtain ⟨id', hfound', hlink'⟩ := F.root
    rw [hroot, hfound'] at hfound
    rw [Option.some.inj hfound, hlink] at hlink'
    cases hlink'

/-- What the cache says of the next part. -/
theorem look (hres : Resolves F cs o) :
    (v.next.Skips ∧ Plain F (dir done ++ visible c)) ∨
      ¬ v.next.Skips ∧ (v.next.get v.next.base = none ∨
        ∃ value, v.next.get v.next.base = some (absolute value) ∧ (∀ c ∈ value, IsName c) ∧
          TransGen (Expands F) cs (value ++ todo)) := by
  obtain ⟨hbase, -, -, -⟩ := h.here.next
  have hsound : Sound F shared v.next.cache := h.cache
  have hentry := fun val (hget : v.next.get v.next.base = some val) =>
    (hbase ▸ hsound.get hget : Entry F (dir done ++ visible c) val).of_base h.here.hard
      h.slash_not_mem (visible_visible c)
  by_cases hskips : v.next.Skips
  · refine .inl ⟨hskips, ?_⟩
    rcases hskips with hempty | hknown | hget
    · rw [hbase] at hempty
      cases hempty
    · rw [← hbase]
      exact h.memo.knownHard _ hknown
    · rcases hentry _ hget with ⟨hplain, -⟩ | ⟨id, target, value, hfound, hlink, hstat, hval, hvalue⟩
      · exact hplain
      · rw [hbase] at hval
        exact absurd hval.symm (h.value_ne_base hres hfound hlink hstat hvalue)
  · refine .inr ⟨hskips, ?_⟩
    cases hget : v.next.get v.next.base with
    | none => exact .inl rfl
    | some val =>
      rcases hentry val hget with ⟨-, rfl⟩ | ⟨id, target, value, hfound, hlink, hstat, rfl, hvalue⟩
      · rw [← hbase] at hget
        exact absurd (.inr (.inr hget)) hskips
      · refine .inr ⟨value, rfl, ?_, ?_⟩
        · exact names_of_reached hvalue (isName_resolved (pieces_no_slash _) target)
        · exact TransGen.head' (h.expands hfound hlink hstat) (reached_append hvalue todo)

theorem pass (hplain : Plain F (dir done ++ visible c)) :
    Scanning F shared orig v.next cs (done ++ [visible c]) todo :=
  ⟨h.here.past hplain, h.memo.next, h.p, h.meets.trans (meet_cons_plain hplain),
    h.links.trans (firstLink_cons_plain hplain), h.cache, h.reached⟩

theorem hard (hplain : Plain F (dir done ++ visible c)) :
    Scanning F shared orig v.next.hard cs (done ++ [visible c]) todo := by
  have hpass := h.pass hplain
  obtain ⟨hbase, -, -, -⟩ := h.here.next
  have hplain' : Plain F v.next.base := by rwa [hbase]
  have hentry : Entry F v.next.base v.next.base := by
    rw [hbase]
    exact .hard h.here.hard h.slash_not_mem (visible_visible c) hplain
  exact ⟨⟨hpass.here.left, hpass.here.current, hpass.here.names, hpass.here.hard⟩,
    hpass.memo.hard hplain', hpass.p, hpass.meets, hpass.links, hpass.cache.put hentry,
    hpass.reached⟩

theorem missing_of_lstat (hfound : F.lstat (dir done ++ visible c) = none) :
    meet F [] cs = .missing := by
  rw [h.meets]
  simp [meet, hfound]

theorem missing_of_stat {id : F.Inode} {target : JSString}
    (hfound : F.lstat (dir done ++ visible c) = some id) (hlink : F.readlink id = some target)
    (hstat : ¬ F.stat id = true) : meet F [] cs = .missing := by
  rw [h.meets]
  simp [meet, hfound, hlink, hstat]

/-- The scan begins again with a path further down. -/
theorem jump {w : Vars} (hp : w.p = v.next.p) (hpos : w.pos = v.next.pos) (hmemo : Memo F orig w)
    (hcache : Sound F shared w.cache) {value : List JSString} (hnames : ∀ c ∈ value, IsName c)
    (hfurther : TransGen (Expands F) cs (value ++ todo)) :
    Starting F shared orig (w.restart cwd (absolute value)) (value ++ todo) :=
  ⟨h.here.restart cwd hp hpos hnames, ⟨hmemo.seenLinks, hmemo.knownHard⟩, hcache,
    h.reached.trans hfurther.to_reflTransGen⟩

/-- What `readlink` gives is resolved and noted, under `base` or under `"undefined"`. -/
theorem replace (cwd : JSString) {w : Vars} (hp : w.p = v.next.p) (hpos : w.pos = v.next.pos)
    (hprevious : w.previous = dir done) (hmemo : Memo F orig w) (hcache : Sound F shared w.cache)
    {id : F.Inode} {target key : JSString} (hfound : F.lstat (dir done ++ visible c) = some id)
    (hlink : F.readlink id = some target) (hstat : F.stat id = true)
    (hkey : key = js "undefined" ∨ key = dir done ++ visible c) :
    resolve cwd [w.previous, target] = absolute (resolved (pieces (dir done)) target) ∧
      Sound F shared (w.put key (resolve cwd [w.previous, target])).cache ∧
      Starting F shared orig (gotTarget cwd w target key)
        (resolved (pieces (dir done)) target ++ todo) := by
  have hresolve : resolve cwd [w.previous, target] =
      absolute (resolved (pieces (dir done)) target) := by
    rw [hprevious]
    exact resolve_two cwd rfl target
  have hentry : Entry F key (absolute (resolved (pieces (dir done)) target)) := by
    rcases hkey with rfl | rfl
    · exact .undefined _
    · exact .link h.here.hard h.slash_not_mem (visible_visible c) hfound hlink hstat .refl
  have hput := hcache.put hentry
  have hmemo' : Memo F orig (w.put key (absolute (resolved (pieces (dir done)) target))) :=
    ⟨hmemo.seenLinks, hmemo.knownHard⟩
  unfold gotTarget
  rw [hresolve]
  refine ⟨rfl, hput, ?_⟩
  exact h.jump (w := w.put key _) hp hpos hmemo' hput (isName_resolved (pieces_no_slash _) target)
    (.single (h.expands hfound hlink hstat))

end Scanning

/-- The loop ends as the path resolves. -/
def Finishes (F : Files) (shared : Bool) (cwd : JSString) (orig : List JSString)
    (o : Option (List JSString)) (x : Vars ⊕ Outcome) : Prop :=
  ∃ cache, Ends (realpathRound F cwd (absolute orig)) x (o.map absolute, cache) ∧
    Sound F shared cache

theorem Finishes.more (h : Finishes F shared cwd orig o (realpathRound F cwd (absolute orig) v)) :
    Finishes F shared cwd orig o (.inl v) := by
  obtain ⟨cache, hends, hcache⟩ := h
  exact ⟨cache, .more hends, hcache⟩

/-- At the end of the path it is returned, and noted in the cache. -/
theorem Scanning.finish (h : Scanning F shared orig v cs done []) (horig : ∀ c ∈ orig, IsName c)
    (hres : Resolves F cs o) :
    o = some cs ∧ v.p.length ≤ v.pos ∧ Sound F shared (v.put (absolute orig) v.p).cache := by
  have hmeet : meet F [] cs = .hard := h.meets
  refine ⟨hres.unique (.hard hmeet), ?_, ?_⟩
  · rw [← Nat.not_lt, h.here.pos_lt, not_not]
  · refine h.cache.put ?_
    rw [h.p]
    exact .final horig (.of_hard h.reached hmeet)

theorem Scanning.finishes (h : Scanning F shared orig v cs done todo) (horig : ∀ c ∈ orig, IsName c)
    (hapart : Apart F orig) (hres : Resolves F cs o)
    (ih : ∀ cs', TransGen (Expands F) cs cs' → ∀ v, Starting F shared orig v cs' →
      Finishes F shared cwd orig o (.inl v)) :
    Finishes F shared cwd orig o (.inl v) := by
  induction todo generalizing done v with
  | nil =>
    obtain ⟨rfl, hpos, hcache⟩ := h.finish horig hres
    apply Finishes.more
    unfold realpathRound
    rw [if_pos hpos, h.p]
    rw [h.p] at hcache
    exact ⟨_, .done _, hcache⟩
  | cons c todo ihtodo =>
    have hpos : ¬ v.p.length ≤ v.pos := Nat.not_le.mpr (h.here.pos_lt.mpr (List.cons_ne_nil c todo))
    obtain ⟨hbase, hprevious, -, -⟩ := h.here.next
    apply Finishes.more
    unfold realpathRound
    rw [if_neg hpos]
    dsimp only
    rcases h.look hres with ⟨hskips, hplain⟩ | ⟨hskips, hget | ⟨value, hget, hnames, hfurther⟩⟩
    · rw [if_pos hskips]
      exact ihtodo (h.pass hplain)
    · rw [if_neg hskips, hget]
      dsimp only
      cases hfound : F.lstat v.next.base with
      | none =>
        obtain rfl := hres.unique (.missing (h.missing_of_lstat (hbase ▸ hfound)))
        exact ⟨_, .done _, h.cache⟩
      | some id =>
        dsimp only
        rw [hbase] at hfound
        cases hlink : F.readlink id with
        | none => exact ihtodo (h.hard ⟨id, hfound, hlink⟩)
        | some target =>
          dsimp only
          have hmet := h.met hfound hlink
          cases hseen : v.next.seen (linkId (F.numbers id)) with
          | some target' =>
            obtain ⟨hlink', hstat⟩ := h.memo.next.of_seen hapart hmet hseen
            obtain rfl : target' = target := Option.some.inj (hlink'.symm.trans hlink)
            refine ih _ (.single (h.expands hfound hlink hstat)) _ ?_
            exact h.replace cwd rfl rfl hprevious h.memo.next h.cache hfound hlink hstat
              (.inr hbase) |>.2.2
          | none =>
            dsimp only
            split_ifs with hstat
            · refine ih _ (.single (h.expands hfound hlink hstat)) _ ?_
              exact h.replace cwd
                (w := { v.next with
                  seenLinks :=
                    Function.update v.next.seenLinks (linkId (F.numbers id)) (some target) })
                rfl rfl hprevious (h.memo.next.see hmet hlink hstat) h.cache hfound hlink hstat
                (.inl rfl) |>.2.2
            · obtain rfl := hres.unique (.missing (h.missing_of_stat hfound hlink hstat))
              exact ⟨_, .done _, h.cache⟩
    · rw [if_neg hskips, hget]
      exact ih _ hfurther _ (h.jump rfl rfl h.memo.next h.cache hnames hfurther)

/-- With whatever cache, `realpath` resolves its path. -/
theorem realpath_finishes (horig : ∀ c ∈ orig, IsName c) (hapart : Apart F orig)
    (hres : Resolves F cs o) :
    ∀ v, Starting F shared orig v cs → Finishes F shared cwd orig o (.inl v) := by
  refine Resolves.strong_induction
    (P := fun cs => ∀ v, Starting F shared orig v cs → Finishes F shared cwd orig o (.inl v))
    (fun cs hres ih v h => ?_) hres
  obtain ⟨hskips, hscan⟩ := h.next
  have hpos : ¬ v.p.length ≤ v.pos := by
    rw [h.fresh.pos, h.fresh.p]
    exact Nat.not_succ_le_zero _
  apply Finishes.more
  unfold realpathRound
  rw [if_neg hpos]
  dsimp only
  rw [if_pos hskips]
  exact hscan.finishes horig hapart hres ih

/-! ### The other loop -/

/-- The ways in which `realpathSync` starts over at a part of the path that is a link. -/
inductive SyncJump (F : Files) (shared : Bool) (cwd : JSString) (orig cs done : List JSString)
    (c : JSString) (todo : List JSString) (v : Vars) (resolvedLink : JSString) :
    Vars × JSString → Prop
  /-- The cache knows the link. -/
  | known {w : Vars} {value : List JSString} (h : Starting F shared orig w (value ++ todo))
      (hfurther : TransGen (Expands F) cs (value ++ todo)) (hshared : shared = true)
      (hseen : w.seenLinks = v.seenLinks) (hcache : ∀ key, v.get key ≠ none → w.get key ≠ none) :
      SyncJump F shared cwd orig cs done c todo v resolvedLink (w, absolute value)
  /-- The link is read. -/
  | new {w : Vars} {id : F.Inode} {target : JSString} {value : List JSString}
      (h : Starting F shared orig w (value ++ todo))
      (hmeet : meet F [] cs = .link id (dir done ++ visible c) value todo)
      (hnew : v.seenLinks (linkId (F.numbers id)) = none ∨ F.readlink id = some [])
      (hseen : w.seenLinks =
        Function.update v.seenLinks (linkId (F.numbers id)) (some target))
      (hcache : ∀ key, v.get key ≠ none → w.get key ≠ none)
      (hput : shared = true → w.get (dir done ++ visible c) ≠ none) :
      SyncJump F shared cwd orig cs done c todo v resolvedLink (w, absolute value)
  /-- The link was read before, and `resolvedLink` stays what it is. -/
  | again {id : F.Inode} {value : List JSString}
      (h : ∀ link, (∀ c ∈ link, IsName c) → TransGen (Expands F) cs (link ++ todo) →
        Starting F shared orig (v.next.restart cwd (absolute link)) (link ++ todo))
      (hmeet : meet F [] cs = .link id (dir done ++ visible c) value todo)
      (hseen : v.seenLinks (linkId (F.numbers id)) ≠ none)
      (hget : v.get (dir done ++ visible c) = none) :
      SyncJump F shared cwd orig cs done c todo v resolvedLink
        (v.next.restart cwd resolvedLink, resolvedLink)

/-- What a round of `realpathSync` can do at a part of the path. -/
inductive SyncStep (F : Files) (shared : Bool) (cwd : JSString) (orig cs done : List JSString)
    (c : JSString) (todo : List JSString) (v : Vars) (resolvedLink : JSString) :
    (Vars × JSString) ⊕ Outcome → Prop
  /-- It is no link. -/
  | pass {w : Vars} (h : Scanning F shared orig w cs (done ++ [visible c]) todo)
      (hseen : w.seenLinks = v.seenLinks) (hcache : ∀ key, v.get key ≠ none → w.get key ≠ none) :
      SyncStep F shared cwd orig cs done c todo v resolvedLink (.inl (w, resolvedLink))
  /-- It cannot be followed. -/
  | fail (hmeet : meet F [] cs = .missing) {cache : Option Cache} (hcache : Sound F shared cache) :
      SyncStep F shared cwd orig cs done c todo v resolvedLink (.inr (none, cache))
  | jump {x : Vars × JSString}
      (h : SyncJump F shared cwd orig cs done c todo v resolvedLink x) :
      SyncStep F shared cwd orig cs done c todo v resolvedLink (.inl x)

theorem get_put (v : Vars) (key val : JSString) :
    (∀ key', v.get key' ≠ none → (v.put key val).get key' ≠ none) ∧
      (v.cache.isSome = true → (v.put key val).get key ≠ none) := by
  cases hcache : v.cache with
  | none => simp [Vars.get, hcache]
  | some cache =>
    have hget : ∀ key', (v.put key val).get key' = Function.update cache key (some val) key' := by
      intro key'
      simp [Vars.get, Vars.put, hcache]
    constructor
    · intro key' hold
      rw [hget]
      by_cases heq : key' = key
      · simp [heq]
      · rw [Function.update_of_ne heq]
        simpa [Vars.get, hcache] using hold
    · intro _
      simp [hget]

theorem eq_none_of_unseen {id : JSString} (h : v.next.seen id = none) :
    v.seenLinks id = none ∨ v.seenLinks id = some [] := by
  have hfilter : (v.seenLinks id).filter (· ≠ []) = none := h
  cases hlink : v.seenLinks id with
  | none => exact .inl rfl
  | some target =>
    rw [hlink] at hfilter
    by_cases hempty : target = []
    · rw [hempty]
      exact .inr rfl
    · simp [Option.filter, hempty] at hfilter

theorem Scanning.syncStep (h : Scanning F shared orig v cs done (c :: todo)) (hapart : Apart F orig)
    (hres : Resolves F cs o) (original resolvedLink : JSString) :
    SyncStep F shared cwd orig cs done c todo v resolvedLink
      (realpathSyncRound F cwd original (v, resolvedLink)) := by
  have hpos : v.pos < v.p.length := h.here.pos_lt.mpr (List.cons_ne_nil c todo)
  obtain ⟨hbase, hprevious, -, -⟩ := h.here.next
  unfold realpathSyncRound
  dsimp only
  rw [if_pos hpos]
  rcases h.look hres with ⟨hskips, hplain⟩ | ⟨hskips, hget | ⟨value, hget, hnames, hfurther⟩⟩
  · rw [if_pos hskips]
    exact .pass (h.pass hplain) rfl fun _ => id
  · rw [if_neg hskips, hget]
    dsimp only
    cases hfound : F.lstat v.next.base with
    | none => exact .fail (h.missing_of_lstat (hbase ▸ hfound)) h.cache
    | some id =>
      dsimp only
      rw [hbase] at hfound
      cases hlink : F.readlink id with
      | none => exact .pass (h.hard ⟨id, hfound, hlink⟩) rfl (get_put v.next _ _).1
      | some target =>
        dsimp only
        have hmet := h.met hfound hlink
        cases hseen : v.next.seen (linkId (F.numbers id)) with
        | some target' =>
          obtain ⟨hlink', hstat⟩ := h.memo.next.of_seen hapart hmet hseen
          have hmeet := h.meet_link hfound hlink hstat
          refine .jump (.again (fun link hnames hfurther => ?_) hmeet ?_ ?_)
          · exact h.jump rfl rfl h.memo.next h.cache hnames hfurther
          · intro hnone
            have hnone' : v.next.seen (linkId (F.numbers id)) = none := by
              simp [Vars.seen, Vars.next, hnone]
            cases hseen.symm.trans hnone'
          · rw [← hbase]
            exact hget
        | none =>
          dsimp only
          split_ifs with hstat
          · have hreplace := h.replace cwd
              (w := { v.next with
                seenLinks :=
                  Function.update v.next.seenLinks (linkId (F.numbers id)) (some target) })
              rfl rfl hprevious (h.memo.next.see hmet hlink hstat) h.cache hfound hlink hstat
              (.inr hbase)
            obtain ⟨hresolve, -, hstarting⟩ := hreplace
            unfold gotTarget at hstarting
            dsimp only at hresolve hstarting
            rw [hresolve] at hstarting ⊢
            have hmeet := h.meet_link hfound hlink hstat
            refine .jump (.new hstarting hmeet ?_ rfl (get_put v.next _ _).1 ?_)
            · exact (eq_none_of_unseen hseen).imp_right fun hempty =>
                (h.memo.of_seenLinks hapart hmet hempty).1
            · intro hshared
              rw [← hbase]
              exact (get_put v.next _ _).2 (h.cache.isSome.trans hshared)
          · exact .fail (h.missing_of_stat hfound hlink hstat) h.cache
  · rw [if_neg hskips, hget]
    refine .jump (.known (h.jump rfl rfl h.memo.next h.cache hnames hfurther) hfurther ?_ rfl
      fun _ => id)
    obtain ⟨cache, hcache, -⟩ := Option.bind_eq_some_iff.mp hget
    rw [← h.cache.isSome]
    exact Option.isSome_iff_exists.mpr ⟨cache, hcache⟩

def SyncFinishes (F : Files) (shared : Bool) (cwd : JSString) (orig : List JSString)
    (o : Option (List JSString)) (x : (Vars × JSString) ⊕ Outcome) : Prop :=
  ∃ cache, Ends (realpathSyncRound F cwd (absolute orig)) x (o.map absolute, cache) ∧
    Sound F shared cache

theorem SyncFinishes.more {resolvedLink : JSString}
    (h : SyncFinishes F shared cwd orig o
      (realpathSyncRound F cwd (absolute orig) (v, resolvedLink))) :
    SyncFinishes F shared cwd orig o (.inl (v, resolvedLink)) := by
  obtain ⟨cache, hends, hcache⟩ := h
  exact ⟨cache, .more hends, hcache⟩

/-- The scan ends well if it does from where it starts over. -/
theorem Scanning.syncFinishes {resolvedLink : JSString}
    (h : Scanning F shared orig v cs done todo) (horig : ∀ c ∈ orig, IsName c)
    (hapart : Apart F orig) (hres : Resolves F cs o)
    (hjump : ∀ (w : Vars) done c todo x, w.seenLinks = v.seenLinks →
      (∀ key, v.get key ≠ none → w.get key ≠ none) →
      SyncJump F shared cwd orig cs done c todo w resolvedLink x →
      SyncFinishes F shared cwd orig o (.inl x)) :
    SyncFinishes F shared cwd orig o (.inl (v, resolvedLink)) := by
  induction todo generalizing done v with
  | nil =>
    obtain ⟨rfl, hpos, hcache⟩ := h.finish horig hres
    apply SyncFinishes.more
    unfold realpathSyncRound
    dsimp only
    rw [if_neg (Nat.not_lt.mpr hpos), h.p]
    rw [h.p] at hcache
    exact ⟨_, .done _, hcache⟩
  | cons c todo ih =>
    apply SyncFinishes.more
    have hstep : SyncStep F shared cwd orig cs done c todo v resolvedLink
        (realpathSyncRound F cwd (absolute orig) (v, resolvedLink)) := h.syncStep hapart hres _ _
    generalize realpathSyncRound F cwd (absolute orig) (v, resolvedLink) = x at hstep ⊢
    cases hstep with
    | pass hpass hseen hcache =>
      refine ih hpass fun w done c todo x hseen' hcache' => ?_
      exact hjump w done c todo x (hseen'.trans hseen) fun key hkey => hcache' key (hcache key hkey)
    | fail hmeet hcache =>
      obtain rfl := hres.unique (.missing hmeet)
      exact ⟨_, .done _, hcache⟩
    | jump hj => exact hjump v done c todo _ rfl (fun _ => id) hj

theorem Starting.syncFinishes {resolvedLink : JSString} (h : Starting F shared orig v cs)
    (horig : ∀ c ∈ orig, IsName c) (hapart : Apart F orig) (hres : Resolves F cs o)
    (hjump : ∀ (w : Vars) done c todo x, w.seenLinks = v.seenLinks →
      (∀ key, v.get key ≠ none → w.get key ≠ none) →
      SyncJump F shared cwd orig cs done c todo w resolvedLink x →
      SyncFinishes F shared cwd orig o (.inl x)) :
    SyncFinishes F shared cwd orig o (.inl (v, resolvedLink)) := by
  obtain ⟨hskips, hscan⟩ := h.next
  have hpos : v.pos < v.p.length := by
    rw [h.fresh.pos, h.fresh.p]
    exact Nat.succ_pos _
  apply SyncFinishes.more
  unfold realpathSyncRound
  dsimp only
  rw [if_pos hpos, if_pos hskips]
  exact hscan.syncFinishes horig hapart hres hjump

end

/-! ### Calls -/

/-- The names of the path that a call works on. -/
def start (cwd : Cwd) (p : JSString) : List JSString := resolved (pieces cwd.path) p

theorem isName_start (cwd : Cwd) (p : JSString) : ∀ c ∈ start cwd p, IsName c :=
  isName_resolved (pieces_no_slash _) p

def enter (cs : List JSString) (cache : Option Cache) : Vars :=
  ⟨absolute cs, fun _ => none, fun _ => false, 0, [], [], [], cache⟩

section
variable {F : Files} {shared : Bool} {cs : List JSString} {cache : Option Cache} {cwd : Cwd}
  {p val : JSString} {r : Outcome}

theorem enter_starting (hcs : ∀ c ∈ cs, IsName c) (hcache : Sound F shared cache) :
    Starting F shared cs (enter cs cache) cs :=
  ⟨⟨rfl, rfl, rfl, hcs⟩, ⟨nofun, nofun⟩, hcache, .refl⟩

theorem begin_hit (h : cache.bind (· (absolute (start cwd p))) = some val) :
    begin cwd.path p cache = .inr (some val, cache) := by
  unfold begin
  rw [resolve_one]
  unfold start at h
  dsimp only
  rw [h]

theorem begin_miss (h : cache.bind (· (absolute (start cwd p))) = none) :
    begin cwd.path p cache = .inl (enter (start cwd p) cache) := by
  unfold begin
  rw [resolve_one]
  unfold start at h
  dsimp only
  rw [h]
  rfl

theorem realpath_of_hit (h : cache.bind (· (absolute (start cwd p))) = some val) :
    Realpath F cwd.path p cache (some val, cache) := by
  unfold Realpath
  rw [begin_hit h]
  exact .done _

theorem realpathSync_of_hit (h : cache.bind (· (absolute (start cwd p))) = some val) :
    RealpathSync F cwd.path p cache (some val, cache) := by
  unfold RealpathSync
  rw [begin_hit h]
  exact .done _

theorem realpath_of_miss (h : cache.bind (· (absolute (start cwd p))) = none)
    (hends : Ends (realpathRound F cwd.path (absolute (start cwd p)))
      (.inl (enter (start cwd p) cache)) r) : Realpath F cwd.path p cache r := by
  unfold Realpath
  rw [begin_miss h, resolve_one]
  exact hends

theorem realpathSync_of_miss (h : cache.bind (· (absolute (start cwd p))) = none)
    (hends : Ends (realpathSyncRound F cwd.path (absolute (start cwd p)))
      (.inl (enter (start cwd p) cache, [])) r) : RealpathSync F cwd.path p cache r := by
  unfold RealpathSync
  rw [begin_miss h, resolve_one]
  exact hends

end

end NodeJS.Fs
