import NodeJS.Timers.Armed

/-! Items that the program has taken out of their lists: which runs keep them silent until they
are enrolled again. -/
namespace NodeJS.Timers
open Lib

/-- Whether `active` throws a TypeError: it appends to a list that is not there. -/
def activeThrows (s : State) (id : ℕ) (it : Item) : Bool :=
  match it.idleTimeout with
  | none => false
  | some msecs =>
    0 ≤ msecs && s.links.next (.item id) ≠ some (.item id) && (s.lists msecs).isNone

/-- The item whose `_onTimeout` the next round of the list callback calls. -/
def State.calls (s : State) : Option ℕ :=
  match s.running with
  | some (msecs, now, .loop) =>
    match LinkList.peek s.links (.list msecs) with
    | some (.item id) =>
      match s.items id with
      | some first =>
        if now - first.idleStart + 1 < msecs || !first.onTimeout then none else some id
      | none => none
    | _ => none
  | _ => none

/-! ### What an operation leaves alone -/

/-- What an operation on the item `id` leaves alone: the lists stay, and so do the other items,
where they are and whether they are linked to themselves. -/
structure Leaves (id : ℕ) (s : State) (c : ℚ → List ℕ) (s' : State) (c' : ℚ → List ℕ) :
    Prop where
  layout : Layout s'.links (fun m => (s'.lists m).isSome = true) c'
  lists : ∀ m, (s.lists m).isSome = true → (s'.lists m).isSome = true
  items : ∀ j, j ≠ id → s'.items j = s.items j
  mem : ∀ j m, j ≠ id → j ∈ c' m → j ∈ c m
  self : ∀ j, j ≠ id → s.links.next (.item j) = some (.item j) →
    s'.links.next (.item j) = some (.item j)

def without (c : ℚ → List ℕ) (id : ℕ) (m : ℚ) : List ℕ := (c m).erase id

/-- The lists after an item was moved to the front of one of them. -/
def toFront (c : ℚ → List ℕ) (id : ℕ) (m : ℚ) : ℚ → List ℕ :=
  Function.update (without c id) m (id :: without c id m)

section
variable {k : Links Node} {live : ℚ → Prop} {c c' c'' : ℚ → List ℕ} {s s' s'' : State} {id : ℕ}

theorem Layout.not_mem_without (h : Layout k live c) (i : ℕ) (m : ℚ) : i ∉ without c i m :=
  (h.nodup m).not_mem_erase

/-- An item that is in no list cannot be taken out of one. -/
theorem without_eq (h : ∀ m, id ∉ c m) : without c id = c := by
  funext m
  exact List.erase_of_not_mem (h m)

/-- An item linked to itself is in no list. -/
theorem Layout.not_mem_of_self (h : Layout k live c) {j : ℕ}
    (hj : k.next (.item j) = some (.item j)) (m : ℚ) : j ∉ c m := by
  intro hm
  obtain ⟨xs, ys, hc⟩ := List.append_of_mem hm
  have hr := h.ring m (h.live_of_mem hm)
  have hnd := h.nodup m
  rw [hc, List.map_append, List.map_cons, Links.seg_append_cons] at hr
  have hnext := Option.some.inj (hr.2.first.1.symm.trans hj)
  cases ys with
  | nil => cases hnext
  | cons y ys =>
    obtain rfl : y = j := Node.item.inj hnext
    rw [hc, List.nodup_append] at hnd
    simp at hnd

theorem Layout.remove_self (h : Layout k live c) {i j : ℕ} (hji : j ≠ i)
    (hj : k.next (.item j) = some (.item j)) :
    (LinkList.remove k (.item i)).next (.item j) = some (.item j) := by
  have hout := h.not_mem_of_self hj
  have hframe := h.remove_frame (i := i) (z := .item j) (by simpa using hji)
    (fun m _ => by simpa using hout m)
  exact hframe.1.trans hj

theorem Layout.append_self (h : Layout k live c) {i j : ℕ} {m : ℚ} (hm : live m) (hji : j ≠ i)
    (hj : k.next (.item j) = some (.item j)) :
    (LinkList.append k (.list m) (.item i)).next (.item j) = some (.item j) := by
  have hrem := h.remove i
  have hself := h.remove_self hji hj
  have hx : Node.item i ∉ Node.list m :: ((c m).erase i).map Node.item := by
    simpa using (h.nodup m).not_mem_erase
  have hz : Node.item j ∉ Node.list m :: Node.item i :: ((c m).erase i).map Node.item := by
    simpa [hji] using hrem.not_mem_of_self hself m
  exact (LinkList.append_ring_frame (hrem.ring m hm) hx hz).1.trans hself

theorem Leaves.trans (h : Leaves id s c s' c') (h' : Leaves id s' c' s'' c'') :
    Leaves id s c s'' c'' where
  layout := h'.layout
  lists m hm := h'.lists m (h.lists m hm)
  items j hj := (h'.items j hj).trans (h.items j hj)
  mem j m hj hm := h.mem j m hj (h'.mem j m hj hm)
  self j hj hs := h'.self j hj (h.self j hj hs)

variable (h : Layout s.links (fun m => (s.lists m).isSome = true) c)
include h

theorem leaves_refl (id : ℕ) : Leaves id s c s c :=
  ⟨h, fun _ hm => hm, fun _ _ => rfl, fun _ _ _ hm => hm, fun _ _ hs => hs⟩

theorem leaves_setItem (id : ℕ) (it : Item) : Leaves id s c (s.setItem id it) c :=
  ⟨h, fun _ hm => hm, fun _ hj => Function.update_of_ne hj .., fun _ _ _ hm => hm,
    fun _ _ hs => hs⟩

theorem leaves_setList {m : ℚ} {t : Timer} (hm : s.lists m = some t) (id : ℕ) (t' : Timer) :
    Leaves id s c (s.setList m t') c := by
  refine ⟨?_, fun m' hm' => ?_, fun _ _ => rfl, fun _ _ _ hj => hj, fun _ _ hs => hs⟩
  · rw [setList_isSome hm]
    exact h
  · have hsame : ((s.setList m t').lists m').isSome = true ↔ (s.lists m').isSome = true :=
      iff_of_eq (congrFun (setList_isSome hm) m')
    exact hsame.mpr hm'

theorem leaves_remove (id : ℕ) :
    Leaves id s c { s with links := LinkList.remove s.links (.item id) } (without c id) :=
  ⟨h.remove id, fun _ hm => hm, fun _ _ => rfl, fun _ _ _ hm => List.mem_of_mem_erase hm,
    fun _ hj hs => h.remove_self hj hs⟩

theorem leaves_append {m : ℚ} (hm : (s.lists m).isSome = true) (id : ℕ) :
    Leaves id s c { s with links := LinkList.append s.links (.list m) (.item id) }
      (toFront c id m) := by
  refine ⟨h.append id hm, fun _ hm => hm, fun _ _ => rfl, fun j m' hj hmem => ?_,
    fun _ hj hs => h.append_self hm hj hs⟩
  unfold toFront at hmem
  by_cases hmm : m' = m
  · subst hmm
    rw [Function.update_self] at hmem
    exact List.mem_of_mem_erase ((List.mem_cons.mp hmem).resolve_left hj)
  · rw [Function.update_of_ne hmm] at hmem
    exact List.mem_of_mem_erase hmem

theorem leaves_init_item (hid : ∀ m, id ∉ c m) :
    Leaves id s c { s with links := LinkList.init s.links (.item id) } c := by
  refine ⟨h.init_item hid, fun _ hm => hm, fun _ _ => rfl, fun _ _ _ hm => hm, fun j hj hs => ?_⟩
  have hne : Node.item j ≠ .item id := by simpa using hj
  simpa [LinkList.init, Links.setNext_next, hne] using hs

theorem leaves_newList {m : ℚ} (hm : s.lists m = none) (id : ℕ) :
    Leaves id s c (State.setList { s with links := LinkList.init s.links (.list m) } m .new) c := by
  have hlive : (fun m' => (Function.update s.lists m (some Timer.new) m').isSome = true) =
      fun m' => m' = m ∨ (s.lists m').isSome = true := by
    funext m'
    by_cases hmm : m' = m
    · simp [hmm]
    · simp [hmm]
  refine ⟨?_, fun m' hm' => ?_, fun _ _ => rfl, fun _ _ _ hj => hj, fun j _ hs => ?_⟩
  · have hlayout := h.init_list (m := m) (by simp [hm])
    exact hlive ▸ hlayout
  · exact (congrFun hlive m').mpr (Or.inr hm')
  · simpa [State.setList, LinkList.init, Links.setNext_next] using hs

/-! ### The operations -/

theorem leaves_insert (id : ℕ) (it : Item) {msecs : ℚ} (now : ℚ) (hpos : 0 ≤ msecs) :
    Leaves id s c (insert s id it msecs now) (toFront c id msecs) ∧
      (insert s id it msecs now).items id =
        some { it with idleStart := now, idleTimeout := some msecs } ∧
      ((insert s id it msecs now).lists msecs).isSome = true := by
  unfold Timers.insert
  rw [if_neg (not_lt.mpr hpos)]
  have h₁ := leaves_setItem h id { it with idleStart := now, idleTimeout := some msecs }
  have hit := setItem_items_self s id { it with idleStart := now, idleTimeout := some msecs }
  generalize s.setItem id { it with idleStart := now, idleTimeout := some msecs } = s₁ at h₁ hit
  have key : ∀ (s₂ : State) (list : Timer), Leaves id s c s₂ c → s₂.items = s₁.items →
      s₂.lists msecs = some list → ∀ s₃, s₃ = (if LinkList.isEmpty s₂.links (.list msecs) then
        s₂.setList msecs (list.again msecs) else s₂) →
      Leaves id s c { s₃ with links := LinkList.append s₃.links (.list msecs) (.item id) }
          (toFront c id msecs) ∧
        s₃.items id = some { it with idleStart := now, idleTimeout := some msecs } ∧
        (s₃.lists msecs).isSome = true := by
    intro s₂ list h₂ hi₂ hl₂ s₃ hs₃
    have h₃ : Leaves id s₂ c s₃ c ∧ s₃.items = s₂.items := by
      rw [hs₃]
      split_ifs
      · exact ⟨leaves_setList h₂.layout hl₂ id _, rfl⟩
      · exact ⟨leaves_refl h₂.layout id, rfl⟩
    have hsome : (s₃.lists msecs).isSome = true := h₃.1.lists msecs (by simp [hl₂])
    have h₄ := leaves_append h₃.1.layout hsome id
    exact ⟨(h₂.trans h₃.1).trans h₄, by rw [h₃.2, hi₂, hit], hsome⟩
  cases hl : s₁.lists msecs with
  | some list => exact key s₁ list h₁ rfl hl _ rfl
  | none =>
    have h₂ := h₁.trans (leaves_newList h₁.layout hl id)
    exact key _ .new h₂ rfl (Function.update_self ..) _ rfl

theorem leaves_unenroll (id : ℕ) (it : Item) :
    Leaves id s c (unenroll s id it) (without c id) ∧ (unenroll s id it).items = s.items := by
  have h₁ := leaves_remove h id
  unfold Timers.unenroll State.listOf
  cases hm : it.idleTimeout with
  | none => exact ⟨h₁, rfl⟩
  | some m =>
    cases hl : s.lists m with
    | none => exact ⟨by simpa [hl] using h₁, by simp [hl]⟩
    | some list =>
      simp only [hl, Option.bind_eq_bind, Option.bind_some, Option.pure_def]
      split_ifs
      · exact ⟨h₁.trans (leaves_setList h₁.layout hl id _), rfl⟩
      · exact ⟨h₁, rfl⟩

theorem leaves_enroll (id : ℕ) (it : Item) (msecs : Option ℚ) :
    Leaves id s c (enroll s id it msecs) (without c id) ∧
      (enroll s id it msecs).items id = some { it with idleTimeout := msecs } ∧
      (enroll s id it msecs).links.next (.item id) = some (.item id) := by
  unfold Timers.enroll
  have key : ∀ s₁ : State, Leaves id s c s₁ (without c id) →
      Leaves id s c { s₁.setItem id { it with idleTimeout := msecs } with
          links := LinkList.init s₁.links (.item id) } (without c id) ∧
        (s₁.setItem id { it with idleTimeout := msecs }).items id =
          some { it with idleTimeout := msecs } ∧
        (LinkList.init s₁.links (.item id)).next (.item id) = some (.item id) := by
    intro s₁ h₁
    have h₂ := h₁.trans (leaves_setItem h₁.layout id { it with idleTimeout := msecs })
    refine ⟨h₂.trans (leaves_init_item h₂.layout (h.not_mem_without id)),
      setItem_items_self .., ?_⟩
    simp [LinkList.init, Links.setNext_next]
  by_cases hn : (s.links.next (.item id)).isSome = true
  · rw [if_pos hn]
    exact key _ (leaves_unenroll h id it).1
  · rw [if_neg hn]
    have h₁ := leaves_refl h id
    have heq : without c id = c := without_eq fun m hm => hn (h.next_isSome hm)
    exact key s (by rw [heq]; exact h₁)

/-- `active` either does nothing, or throws at a list that is not there after it has taken the
item out of its list, or leaves the item in a list that exists. -/
theorem leaves_active (id : ℕ) (it : Item) (now : ℚ) :
    (active s id it now = s ∧ ∀ m, it.idleTimeout = some m → m < 0) ∨
    ∃ m c' it', it.idleTimeout = some m ∧ 0 ≤ m ∧ Leaves id s c (active s id it now) c' ∧
      (c' = toFront c id m ∨ c' = without c id) ∧
      (active s id it now).items id = some it' ∧ it'.onTimeout = it.onTimeout ∧
      it'.idleTimeout = some m ∧ it'.idleStart = now ∧
      (activeThrows s id it = false → ((active s id it now).lists m).isSome = true) := by
  unfold Timers.active activeThrows
  cases hm : it.idleTimeout with
  | none => exact Or.inl ⟨rfl, nofun⟩
  | some msecs =>
    dsimp only
    split_ifs with hneg hself
    · left
      refine ⟨rfl, fun m hm' => ?_⟩
      obtain rfl := Option.some.inj hm'
      exact hneg
    · obtain ⟨h₁, hit', hsome⟩ := leaves_insert h id it now (not_lt.mp hneg)
      exact Or.inr ⟨msecs, _, _, rfl, not_lt.mp hneg, h₁, .inl rfl, hit', rfl, rfl, rfl,
        fun _ => hsome⟩
    · right
      have h₁ := leaves_setItem h id { it with idleStart := now, idleTimeout := some msecs }
      have hit' := setItem_items_self s id
        { it with idleStart := now, idleTimeout := some msecs }
      cases hl : (s.setItem id { it with idleStart := now, idleTimeout := some msecs }).lists
          msecs with
      | some t =>
        have h₂ := leaves_append h₁.layout (m := msecs) (by simp [hl]) id
        exact ⟨msecs, _, _, rfl, not_lt.mp hneg, h₁.trans h₂, .inl rfl, hit', rfl, rfl, rfl,
          fun _ => by simp [hl]⟩
      | none =>
        have hl' : s.lists msecs = none := hl
        refine ⟨msecs, _, _, rfl, not_lt.mp hneg, h₁.trans (leaves_remove h₁.layout id), .inr rfl,
          hit', rfl, rfl, rfl, fun hthrows => ?_⟩
        simp [not_lt.mp hneg, hself, hl'] at hthrows

theorem leaves_clearTimeout {it : Item} (hhas : (it.callback || it.onTimeout) = true) :
    ∃ it', Leaves id s c (clearTimeout s id it) (without c id) ∧
      (clearTimeout s id it).items id = some it' ∧ it'.onTimeout = false := by
  unfold Timers.clearTimeout
  rw [if_pos hhas]
  have h₁ := leaves_setItem h id { it with callback := false, onTimeout := false }
  obtain ⟨h₂, -⟩ := leaves_unenroll h₁.layout id { it with callback := false, onTimeout := false }
  have h₃ := (h₁.trans h₂).trans (leaves_setItem h₂.layout id
    { it with callback := false, onTimeout := false, timer := it.timer.map Timer.stop })
  exact ⟨_, h₃, setItem_items_self .., rfl⟩

/-- The object made by `setTimeout` waits in a list that exists, unless it is a plain timer. -/
theorem leaves_setTimeout (hid : ∀ m, id ∉ c m) (callback : Bool) (after : Option ℚ) (now : ℚ) :
    ∃ c' it', Leaves id s c (setTimeout s id callback after now) c' ∧
      (setTimeout s id callback after now).items id = some it' ∧
      ∀ m, it'.idleTimeout = some m → 0 ≤ m →
        ((setTimeout s id callback after now).lists m).isSome = true := by
  unfold Timers.setTimeout
  split_ifs with hle
  · exact ⟨c, _, leaves_setItem h id _, setItem_items_self .., nofun⟩
  · have h₁ := leaves_setItem h id ⟨after, 0, callback, false, none⟩
    have h₂ := h₁.trans (leaves_init_item h₁.layout hid)
    have hthrows : activeThrows { s.setItem id ⟨after, 0, callback, false, none⟩ with
        links := LinkList.init s.links (.item id) } id ⟨after, 0, callback, false, none⟩ =
          false := by
      unfold activeThrows
      cases after with
      | none => rfl
      | some m => simp [LinkList.init, Links.setNext_next]
    rcases leaves_active h₂.layout id ⟨after, 0, callback, false, none⟩ now with
      ⟨hsame, hneg⟩ | ⟨m, c', it', -, -, h₃, -, hit', -, hm', -, hlist⟩
    · refine ⟨c, _, ?_, ?_, fun m hm hpos => absurd hpos (not_le.mpr (hneg m hm))⟩
      · exact hsame ▸ h₂
      · exact (congrFun (congrArg State.items hsame) id).trans (setItem_items_self ..)
    · refine ⟨c', it', h₂.trans h₃, hit', fun m' hm'' _ => ?_⟩
      obtain rfl : m = m' := Option.some.inj (hm'.symm.trans hm'')
      exact hlist hthrows

/-- A round of a list callback takes at most the item it shows out of its list. -/
theorem leaves_callbackRound {msecs : ℚ} {list : Timer} (hl : s.lists msecs = some list)
    (now : ℚ) :
    ∃ id c', Leaves id s c (callbackRound s msecs now list) c' ∧
      (callbackRound s msecs now list).items = s.items ∧ (∀ m, id ∈ c' m → id ∈ c m) ∧
      (s.links.next (.item id) = some (.item id) →
        (callbackRound s msecs now list).links.next (.item id) = some (.item id)) := by
  have hring := h.ring msecs (by simp [hl])
  have hlist : Node.list msecs ∉ (c msecs).map Node.item := by simp
  have hpeek := LinkList.peek_ring hring hlist
  unfold Timers.callbackRound
  rw [hpeek, List.getLast?_map]
  cases hlast : (c msecs).getLast? with
  | none =>
    have h₁ := leaves_setList h hl 0 list.stop
    exact ⟨0, c, ⟨h₁.layout, h₁.lists, h₁.items, h₁.mem, h₁.self⟩, rfl, fun _ hm => hm,
      fun hs => hs⟩
  | some id =>
    simp only [Option.map_some]
    cases hfirst : s.items id with
    | none => exact ⟨id, c, leaves_refl h id, rfl, fun _ hm => hm, fun hs => hs⟩
    | some first =>
      have hmem := List.mem_of_getLast? hlast
      dsimp only
      split_ifs
      · have h₁ := leaves_setList h hl id (list.again (msecs - (now - first.idleStart)))
        exact ⟨id, c, ⟨h₁.layout, h₁.lists, h₁.items, h₁.mem, h₁.self⟩, rfl, fun _ hm => hm,
          fun hs => hs⟩
      all_goals
        have h₁ := leaves_remove h id
        exact ⟨id, _, ⟨h₁.layout, h₁.lists, h₁.items, h₁.mem, h₁.self⟩, rfl,
          fun _ hm => List.mem_of_mem_erase hm,
          fun hs => absurd hmem (h.not_mem_of_self hs msecs)⟩

end

/-! ### Runs -/

/-- A state, and the items that have been unenrolled and not enrolled since. -/
structure Watched where
  state : State
  withdrawn : ℕ → Bool

def Watched.initial : Watched := ⟨State.initial, fun _ => false⟩

/-- The items withdrawn after an action. `setTimeout` enrolls the object it makes, and
`clearTimeout` unenrolls an object that has a handler. -/
def Watched.withdraws (w : Watched) : Action → ℕ → Bool
  | .enroll id _ => Function.update w.withdrawn id false
  | .setTimeout id _ _ _ => Function.update w.withdrawn id false
  | .unenroll id => Function.update w.withdrawn id true
  | .clearTimeout id =>
    if (w.state.items id).any fun it => it.callback || it.onTimeout then
      Function.update w.withdrawn id true
    else w.withdrawn
  | _ => w.withdrawn

def Watched.step (w : Watched) (a : Action) : Option Watched :=
  (Timers.step w.state a).map fun s => ⟨s, w.withdraws a⟩

/-- The `_onTimeout` of a withdrawn item is not called, and `active` does not throw. -/
def Watched.Quiet (w : Watched) : Action → Prop
  | .round => ∀ id, w.state.calls = some id → w.withdrawn id = false
  | .active id _ => ∀ it, w.state.items id = some it → activeThrows w.state id it = false
  | _ => True

/-- The condition on a step: `active` is not called on a withdrawn item that has a timeout, unless
there is a list for it and no `_onTimeout` to call. -/
def Watched.Resting (w : Watched) : Action → Prop
  | .active id _ => w.withdrawn id = true → ∀ it msecs, w.state.items id = some it →
    it.idleTimeout = some msecs → 0 ≤ msecs →
      (w.state.lists msecs).isSome = true ∧ it.onTimeout = false
  | _ => True

/-- What such runs keep. -/
structure Silent (w : Watched) (c : ℚ → List ℕ) : Prop where
  layout : Layout w.state.links (fun m => (w.state.lists m).isSome = true) c
  known : ∀ id m, w.state.items id = none → id ∉ c m
  silent : ∀ id it, w.state.items id = some it → w.withdrawn id = true → it.onTimeout = true →
    ∀ m, id ∉ c m
  listed : ∀ id it m, w.state.items id = some it → w.withdrawn id = false →
    it.idleTimeout = some m → 0 ≤ m → (w.state.lists m).isSome = true ∨
      w.state.links.next (.item id) = some (.item id)

variable {w : Watched} {c c' : ℚ → List ℕ} {s' : State} {id : ℕ}

theorem Silent.initial : Silent Watched.initial fun _ => [] := by
  refine ⟨Inv.initial.layout, fun _ _ _ => ?_, nofun, nofun⟩
  exact List.not_mem_nil

/-- An operation on one item, given what it does to that item. -/
theorem Silent.operation (h : Silent w c) (hl : Leaves id w.state c s' c') {it : Item}
    {withdrawn : ℕ → Bool} (hw : ∀ j, j ≠ id → withdrawn j = w.withdrawn j)
    (hit : s'.items id = some it)
    (hsilent : withdrawn id = true → it.onTimeout = true → ∀ m, id ∉ c' m)
    (hlisted : ∀ m, withdrawn id = false → it.idleTimeout = some m → 0 ≤ m →
      (s'.lists m).isSome = true ∨ s'.links.next (.item id) = some (.item id)) :
    Silent ⟨s', withdrawn⟩ c' := by
  refine ⟨hl.layout, fun j m hj => ?_, fun j it' hj hjw hon m => ?_,
    fun j it' m hj hjw hm hpos => ?_⟩
  · have hji : j ≠ id := by
      rintro rfl
      simp [hit] at hj
    exact fun hmem => h.known j m ((hl.items j hji).symm.trans hj) (hl.mem j m hji hmem)
  · by_cases hji : j = id
    · subst hji
      obtain rfl := Option.some.inj (hit.symm.trans hj)
      exact hsilent hjw hon m
    · exact fun hmem => h.silent j it' ((hl.items j hji).symm.trans hj)
        ((hw j hji).symm.trans hjw) hon m (hl.mem j m hji hmem)
  · by_cases hji : j = id
    · subst hji
      obtain rfl := Option.some.inj (hit.symm.trans hj)
      exact hlisted m hjw hm hpos
    · rcases h.listed j it' m ((hl.items j hji).symm.trans hj) ((hw j hji).symm.trans hjw) hm
        hpos with hlist | hself
      · exact Or.inl (hl.lists m hlist)
      · exact Or.inr (hl.self j hji hself)

/-- A step that leaves the items as they are and puts none into a list. -/
theorem Silent.of_items (h : Silent w c)
    (hl : Layout s'.links (fun m => (s'.lists m).isSome = true) c')
    (hlists : ∀ m, (w.state.lists m).isSome = true → (s'.lists m).isSome = true)
    (hitems : s'.items = w.state.items) (hmem : ∀ j m, j ∈ c' m → j ∈ c m)
    (hself : ∀ j, w.state.links.next (.item j) = some (.item j) →
      s'.links.next (.item j) = some (.item j)) : Silent ⟨s', w.withdrawn⟩ c' := by
  refine ⟨hl, fun j m hj hm => ?_, fun j it hj hw hon m hm => ?_, fun j it m hj hw hm hpos => ?_⟩
  · exact h.known j m (hitems ▸ hj) (hmem j m hm)
  · exact h.silent j it (hitems ▸ hj) hw hon m (hmem j m hm)
  · exact (h.listed j it m (hitems ▸ hj) hw hm hpos).imp (hlists m) (hself j)

theorem Silent.running (h : Silent w c) (r : Option (ℚ × ℚ × Phase)) :
    Silent ⟨{ w.state with running := r }, w.withdrawn⟩ c :=
  h.of_items h.layout (fun _ hm => hm) rfl (fun _ _ hm => hm) fun _ hs => hs

theorem Silent.active (h : Silent w c) {it : Item} (now : ℚ) (hit : w.state.items id = some it)
    (hrest : w.Resting (.active id now)) :
    ∃ c', Silent ⟨active w.state id it now, w.withdrawn⟩ c' := by
  rcases leaves_active h.layout id it now with
    ⟨hsame, -⟩ | ⟨m, c', it', hm, hpos, hl, -, hit', hon, hm', -, hlist⟩
  · rw [hsame]
    exact ⟨c, h⟩
  · refine ⟨c', h.operation hl (fun _ _ => rfl) hit' (fun hw hon' => ?_)
      fun m' hw hmm _ => Or.inl ?_⟩
    · have hoff := (hrest hw it m hit hm hpos).2
      rw [← hon, hon'] at hoff
      cases hoff
    · obtain rfl : m = m' := Option.some.inj (hm'.symm.trans hmm)
      apply hlist
      rcases h.listed id it m hit hw hm hpos with hlist' | hself
      · simp [activeThrows, hm, Option.isNone_eq_false_iff.mpr hlist']
      · simp [activeThrows, hm, hself]

theorem Silent.clearTimeout (h : Silent w c) {it : Item} (hit : w.state.items id = some it) :
    ∃ c', Silent ⟨clearTimeout w.state id it, w.withdraws (.clearTimeout id)⟩ c' := by
  unfold Watched.withdraws
  dsimp only
  rw [hit, Option.any_some]
  by_cases hhas : (it.callback || it.onTimeout) = true
  · rw [if_pos hhas]
    obtain ⟨it', hl, hit', hon⟩ := leaves_clearTimeout h.layout hhas
    refine ⟨_, h.operation hl (fun j hj => Function.update_of_ne hj ..) hit' (fun _ hon' => ?_)
      fun m hw => ?_⟩
    · rw [hon] at hon'
      cases hon'
    · rw [Function.update_self] at hw
      cases hw
  · rw [if_neg hhas]
    unfold Timers.clearTimeout
    rw [if_neg hhas]
    exact ⟨c, h⟩

theorem Silent.setTimeout (h : Silent w c) (hid : w.state.items id = none) (callback : Bool)
    (after : Option ℚ) (now : ℚ) :
    ∃ c', Silent ⟨setTimeout w.state id callback after now,
      w.withdraws (.setTimeout id callback after now)⟩ c' := by
  obtain ⟨c', it', hl, hit', hlist⟩ :=
    leaves_setTimeout h.layout (fun m => h.known id m hid) callback after now
  refine ⟨c', h.operation hl (fun j hj => Function.update_of_ne hj ..) hit' (fun hw => ?_)
    fun m _ hm hpos => Or.inl (hlist m hm hpos)⟩
  rw [Watched.withdraws, Function.update_self] at hw
  cases hw

theorem Silent.enroll (h : Silent w c) (id : ℕ) (it : Item) (msecs : Option ℚ) :
    ∃ c', Silent ⟨enroll w.state id it msecs, w.withdraws (.enroll id msecs)⟩ c' := by
  obtain ⟨hl, hit, hself⟩ := leaves_enroll h.layout id it msecs
  exact ⟨_, h.operation hl (fun j hj => Function.update_of_ne hj ..) hit
    (fun _ _ => h.layout.not_mem_without id) fun _ _ _ _ => Or.inr hself⟩

theorem Silent.unenroll (h : Silent w c) {it : Item} (hit : w.state.items id = some it) :
    ∃ c', Silent ⟨unenroll w.state id it, w.withdraws (.unenroll id)⟩ c' := by
  obtain ⟨hl, hitems⟩ := leaves_unenroll h.layout id it
  refine ⟨_, h.operation hl (fun j hj => Function.update_of_ne hj ..)
    ((congrFun hitems id).trans hit) (fun _ _ => h.layout.not_mem_without id) fun m hw => ?_⟩
  rw [Watched.withdraws, Function.update_self] at hw
  cases hw

theorem Silent.callbackRound (h : Silent w c) {msecs : ℚ} {list : Timer}
    (hl : w.state.lists msecs = some list) (now : ℚ) :
    ∃ c', Silent ⟨callbackRound w.state msecs now list, w.withdrawn⟩ c' := by
  obtain ⟨id, c', hleaves, hitems, hmem, hself⟩ := leaves_callbackRound h.layout hl now
  refine ⟨c', h.of_items hleaves.layout hleaves.lists hitems (fun j m hj => ?_) fun j hj => ?_⟩
  · by_cases hji : j = id
    · exact hji ▸ hmem m (hji ▸ hj)
    · exact hleaves.mem j m hji hj
  · by_cases hji : j = id
    · exact hji ▸ hself (hji ▸ hj)
    · exact hleaves.self j hji hj

theorem Silent.step (h : Silent w c) {a : Action} {w' : Watched} (hrest : w.Resting a)
    (hstep : w.step a = some w') : ∃ c, Silent w' c := by
  obtain ⟨s', hs, rfl⟩ := Option.map_eq_some_iff.mp hstep
  cases steps_of_step hs with
  | @create id onTimeout hid =>
    have hl := leaves_setItem h.layout id ⟨none, 0, onTimeout, false, none⟩
    refine ⟨c, h.operation hl (fun _ _ => rfl) (setItem_items_self ..)
      (fun _ _ m => h.known id m hid) fun _ _ hm => ?_⟩
    cases hm
  | enroll msecs => exact h.enroll _ _ msecs
  | active now hit => exact h.active now hit hrest
  | unenroll hit => exact h.unenroll hit
  | setTimeout callback after now hid => exact h.setTimeout hid callback after now
  | clearTimeout hit => exact h.clearTimeout hit
  | @fire msecs list now hlist =>
    have hleaves := leaves_setList h.layout hlist 0 list.fire
    have hset := h.of_items hleaves.layout hleaves.lists rfl (fun _ _ hm => hm) fun _ hj => hj
    exact ⟨c, hset.running _⟩
  | round _ hlist => exact h.callbackRound hlist _
  | handlerReturns => exact ⟨c, h.running _⟩
  | handlerThrows => exact ⟨c, h.running _⟩

/-- The next round calls the handler of an item that is in the list. -/
theorem Silent.calls (h : Silent w c) {msecs now : ℚ} {list : Timer}
    (hrun : w.state.running = some (msecs, now, .loop)) (hl : w.state.lists msecs = some list)
    (hcalls : w.state.calls = some id) : w.withdrawn id = false := by
  have hring := h.layout.ring msecs (by simp [hl])
  have hlist : Node.list msecs ∉ (c msecs).map Node.item := by simp
  have hpeek := LinkList.peek_ring hring hlist
  unfold State.calls at hcalls
  rw [hrun] at hcalls
  dsimp only at hcalls
  rw [hpeek, List.getLast?_map] at hcalls
  cases hlast : (c msecs).getLast? with
  | none => simp [hlast] at hcalls
  | some i =>
    cases hfirst : w.state.items i with
    | none => simp [hlast, hfirst] at hcalls
    | some first =>
      simp only [hlast, hfirst, Option.map_some] at hcalls
      split_ifs at hcalls with hoff
      obtain rfl := Option.some.inj hcalls
      simp only [Bool.or_eq_true, decide_eq_true_eq, Bool.not_eq_true', not_or,
        Bool.not_eq_false] at hoff
      by_contra hw
      exact h.silent i first hfirst (by simpa using hw) hoff.2 msecs (List.mem_of_getLast? hlast)

theorem Silent.quiet (h : Silent w c) {a : Action} {w' : Watched} (hrest : w.Resting a)
    (hstep : w.step a = some w') : w.Quiet a := by
  obtain ⟨s', hs, rfl⟩ := Option.map_eq_some_iff.mp hstep
  cases a with
  | active id now =>
    intro it hit
    unfold activeThrows
    cases hm : it.idleTimeout with
    | none => rfl
    | some msecs =>
      by_cases hpos : 0 ≤ msecs
      · have hor : (w.state.lists msecs).isSome = true ∨
            w.state.links.next (.item id) = some (.item id) := by
          cases hw : w.withdrawn id with
          | true => exact Or.inl (hrest hw it msecs hit hm hpos).1
          | false => exact h.listed id it msecs hit hw hm hpos
        rcases hor with hlist | hself
        · simp [Option.isNone_eq_false_iff.mpr hlist]
        · simp [hself]
      · simp [hpos]
  | round =>
    intro id hcalls
    cases steps_of_step hs with
    | round hrunning hlist => exact h.calls hrunning hlist hcalls
  | _ => trivial

/-- In a run that does not call `active` on withdrawn items, such items are left alone and
`active` does not throw. -/
theorem quiet_of_reach (w w' : Watched) (a : Action)
    (h : Reach Watched.step Watched.Resting Watched.initial w) (hrest : w.Resting a)
    (hstep : w.step a = some w') : w.Quiet a := by
  obtain ⟨c, hsilent⟩ := h.invariant (P := fun w => ∃ c, Silent w c) ⟨_, Silent.initial⟩
    fun _ _ _ ⟨_, hi⟩ ha hs => hi.step ha hs
  exact hsilent.quiet hrest hstep

theorem quiet_of_reach_fired :
    ∃ w w', Reach Watched.step Watched.Resting Watched.initial w ∧
      w.step .round = some w' ∧ w.state.calls = some 0 ∧ w.Quiet .round := by
  let it : Item := ⟨none, 0, true, false, none⟩
  let w₁ : Watched := ⟨State.initial.setItem 0 it, fun _ => false⟩
  let w₂ : Watched := ⟨enroll w₁.state 0 it (some 100), w₁.withdraws (.enroll 0 (some 100))⟩
  let w₃ : Watched := ⟨active w₂.state 0 { it with idleTimeout := some 100 } 5, w₂.withdrawn⟩
  let w₄ : Watched :=
    ⟨{ w₃.state.setList 100 ⟨true, 100⟩ with running := some (100, 105, .loop) }, w₃.withdrawn⟩
  have hrest : w₂.Resting (.active 0 5) := fun hw => by cases hw
  have h₁ : Reach Watched.step Watched.Resting Watched.initial w₁ :=
    .single ⟨.create 0 true, trivial, rfl⟩
  have h₂ : Reach Watched.step Watched.Resting Watched.initial w₂ :=
    h₁.tail ⟨.enroll 0 (some 100), trivial, rfl⟩
  have h₃ : Reach Watched.step Watched.Resting Watched.initial w₃ :=
    h₂.tail ⟨.active 0 5, hrest, rfl⟩
  have h₄ : Reach Watched.step Watched.Resting Watched.initial w₄ :=
    h₃.tail ⟨.fire 100 105, trivial, rfl⟩
  exact ⟨w₄, _, h₄, rfl, by decide +kernel, quiet_of_reach w₄ _ .round h₄ trivial rfl⟩

/-- `active` puts an unenrolled item back into its list, whose handler then calls it; where there
is no list yet `active` throws. -/
theorem not_quiet :
    (¬ ∀ w, Reach Watched.step (fun _ _ => True) Watched.initial w →
      ∀ id, w.state.calls = some id → w.withdrawn id = false) ∧
    ¬ ∀ w, Reach Watched.step (fun _ _ => True) Watched.initial w →
      ∀ id it, w.state.items id = some it → activeThrows w.state id it = false := by
  constructor
  · intro h
    let as : List Action := [.create 0 true, .enroll 0 (some 100), .create 1 true,
      .enroll 1 (some 100), .active 1 0, .unenroll 0, .active 0 10, .active 1 20, .fire 100 120]
    have hrun : (run Watched.step Watched.initial as).map (fun w =>
        (w.state.calls, w.withdrawn 0)) = some (some 0, true) := by decide +kernel
    obtain ⟨w, hw, hw'⟩ := Option.map_eq_some_iff.mp hrun
    obtain ⟨hcalls, hwithdrawn⟩ := Prod.mk.inj hw'
    have hquiet := h w (reach_of_run hw fun _ _ => trivial) 0 hcalls
    simp [hwithdrawn] at hquiet
  · intro h
    let as : List Action := [.create 0 true, .enroll 0 (some 100), .unenroll 0]
    have hrun : (run Watched.step Watched.initial as).map (fun w =>
        (w.state.items 0).map fun it => activeThrows w.state 0 it) = some (some true) := by
      decide +kernel
    obtain ⟨w, hw, hw'⟩ := Option.map_eq_some_iff.mp hrun
    obtain ⟨it, hit, hthrows⟩ := Option.map_eq_some_iff.mp hw'
    have hquiet := h w (reach_of_run hw fun _ _ => trivial) 0 it hit
    simp [hthrows] at hquiet

end NodeJS.Timers
