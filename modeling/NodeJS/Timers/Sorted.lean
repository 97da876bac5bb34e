import NodeJS.Timers.Withdrawn

/-! The order of the items in the idle lists, under a clock that does not go back, and what a list
callback finds because of it. -/
namespace NodeJS.Timers
open Lib

/-- `item._idleStart` -/
def State.start (s : State) (id : ℕ) : ℚ := ((s.items id).map Item.idleStart).getD 0

/-- Every list is a ring through its items, each item is in one list at most, the one for its own
timeout, and the item that has been idle for longest stands at the end. -/
structure Ordered (s : State) (c : ℚ → List ℕ) (clock : ℚ) : Prop where
  layout : Layout s.links (fun m => (s.lists m).isSome = true) c
  listed : ∀ m i, i ∈ c m →
    ∃ it, s.items i = some it ∧ it.idleTimeout = some m ∧ it.idleStart ≤ clock
  sorted : ∀ m, (c m).Pairwise fun i j => s.start j ≤ s.start i

section
variable {s s' : State} {c c' : ℚ → List ℕ} {id : ℕ} {clock now : ℚ}

theorem start_eq {it : Item} (h : s.items id = some it) : s.start id = it.idleStart := by
  unfold State.start
  rw [h]
  rfl

theorem start_congr (h : s'.items id = s.items id) : s'.start id = s.start id := by
  unfold State.start
  rw [h]

theorem Ordered.start_le (h : Ordered s c clock) {m : ℚ} {i : ℕ} (hi : i ∈ c m) :
    s.start i ≤ clock := by
  obtain ⟨it, hit, -, hle⟩ := h.listed m i hi
  rw [start_eq hit]
  exact hle

/-- The items that are left when one is taken out are in order. -/
theorem Ordered.sorted_without (h : Ordered s c clock) (hl : Leaves id s c s' c') (m : ℚ) :
    (without c id m).Pairwise fun i j => s'.start j ≤ s'.start i := by
  have hne : ∀ {j}, j ∈ without c id m → j ≠ id := by
    rintro j hj rfl
    exact h.layout.not_mem_without j m hj
  refine ((h.sorted m).sublist List.erase_sublist).imp_of_mem fun {i j} hi hj hij => ?_
  rw [start_congr (hl.items i (hne hi)), start_congr (hl.items j (hne hj))]
  exact hij

theorem Ordered.listed_of_ne (h : Ordered s c clock) (hl : Leaves id s c s' c')
    (hle : clock ≤ now) {m : ℚ} {i : ℕ} (hne : i ≠ id) (hi : i ∈ c' m) :
    ∃ it, s'.items i = some it ∧ it.idleTimeout = some m ∧ it.idleStart ≤ now := by
  obtain ⟨it, hit, hm, hstart⟩ := h.listed m i (hl.mem i m hne hi)
  exact ⟨it, (hl.items i hne).trans hit, hm, hstart.trans hle⟩

theorem Ordered.without (h : Ordered s c clock) (hl : Leaves id s c s' (without c id))
    (hle : clock ≤ now) : Ordered s' (without c id) now := by
  refine ⟨hl.layout, fun m i hi => h.listed_of_ne hl hle ?_ hi, h.sorted_without hl⟩
  rintro rfl
  exact h.layout.not_mem_without i m hi

/-- An item goes to the front with the time it is put there, so nothing behind it is newer. -/
theorem Ordered.toFront (h : Ordered s c clock) {m : ℚ} (hl : Leaves id s c s' (toFront c id m))
    {it : Item} (hit : s'.items id = some it) (hm : it.idleTimeout = some m)
    (hstart : it.idleStart = now) (hle : clock ≤ now) : Ordered s' (toFront c id m) now := by
  refine ⟨hl.layout, fun m' i hi => ?_, fun m' => ?_⟩
  · by_cases hid : i = id
    · subst hid
      have hmm : m' = m := by
        by_contra hne
        unfold Timers.toFront at hi
        rw [Function.update_of_ne hne] at hi
        exact h.layout.not_mem_without i m' hi
      exact ⟨it, hit, hmm ▸ hm, hstart.le⟩
    · exact h.listed_of_ne hl hle hid hi
  · have hrest := h.sorted_without hl
    unfold Timers.toFront
    by_cases hmm : m' = m
    · subst hmm
      rw [Function.update_self]
      refine List.pairwise_cons.mpr ⟨fun j hj => ?_, hrest m'⟩
      have hne : j ≠ id := by
        rintro rfl
        exact h.layout.not_mem_without j m' hj
      rw [start_congr (hl.items j hne), start_eq hit, hstart]
      exact (h.start_le (List.mem_of_mem_erase hj)).trans hle
    · rw [Function.update_of_ne hmm]
      exact hrest m'

theorem setList_lists_isSome {m : ℚ} {list : Timer} (h : s.lists m = some list) (t : Timer)
    (m' : ℚ) : ((s.setList m t).lists m').isSome = (s.lists m').isSome :=
  Bool.eq_iff_iff.mpr (iff_of_eq (congrFun (setList_isSome h) m'))

/-- A step that moves nothing. -/
theorem Ordered.same (h : Ordered s c clock) (hlinks : s'.links = s.links)
    (hlists : ∀ m, (s'.lists m).isSome = (s.lists m).isSome) (hitems : s'.items = s.items)
    (hle : clock ≤ now) : Ordered s' c now := by
  refine ⟨?_, fun m i hi => ?_, fun m => ?_⟩
  · simp only [hlinks, hlists]
    exact h.layout
  · obtain ⟨it, hit, hm, hstart⟩ := h.listed m i hi
    exact ⟨it, hitems ▸ hit, hm, hstart.trans hle⟩
  · unfold State.start
    rw [hitems]
    exact h.sorted m

/-! ### The operations -/

theorem Ordered.active (h : Ordered s c clock) (id : ℕ) (it : Item) (hle : clock ≤ now) :
    ∃ c', Ordered (active s id it now) c' now := by
  rcases leaves_active h.layout id it now with
    ⟨hsame, -⟩ | ⟨m, c', it', -, -, hl, rfl | rfl, hit, -, hm, hstart, -⟩
  · rw [hsame]
    exact ⟨c, h.same rfl (fun _ => rfl) rfl hle⟩
  · exact ⟨_, h.toFront hl hit hm hstart hle⟩
  · exact ⟨_, h.without hl hle⟩

theorem Ordered.clearTimeout (h : Ordered s c clock) (id : ℕ) (it : Item) :
    ∃ c', Ordered (clearTimeout s id it) c' clock := by
  by_cases hhas : (it.callback || it.onTimeout) = true
  · obtain ⟨it', hl, -⟩ := @leaves_clearTimeout c s id h.layout it hhas
    exact ⟨_, h.without hl le_rfl⟩
  · unfold Timers.clearTimeout
    rw [if_neg hhas]
    exact ⟨c, h⟩

theorem Ordered.notMem (h : Ordered s c clock) (hid : s.items id = none) (m : ℚ) : id ∉ c m := by
  intro hm
  obtain ⟨it, hit, -⟩ := h.listed m id hm
  exact absurd (hid.symm.trans hit) nofun

theorem Ordered.setItem (h : Ordered s c clock) (hid : ∀ m, id ∉ c m) (it : Item)
    (hle : clock ≤ now) : Ordered (s.setItem id it) c now := by
  have hl : Leaves id s c (s.setItem id it) (Timers.without c id) := by
    rw [without_eq hid]
    exact leaves_setItem h.layout id it
  have hordered := h.without hl hle
  rwa [without_eq hid] at hordered

theorem Ordered.setTimeout (h : Ordered s c clock) (hid : ∀ m, id ∉ c m) (callback : Bool)
    (after : Option ℚ) (hle : clock ≤ now) :
    ∃ c', Ordered (setTimeout s id callback after now) c' now := by
  unfold Timers.setTimeout
  split_ifs
  · exact ⟨c, h.setItem hid _ hle⟩
  · have h₁ := h.setItem hid ⟨after, 0, callback, false, none⟩ le_rfl
    have h₂ : Ordered { s.setItem id ⟨after, 0, callback, false, none⟩ with
        links := LinkList.init s.links (.item id) } c clock :=
      ⟨h₁.layout.init_item hid, h₁.listed, h₁.sorted⟩
    exact h₂.active id _ hle

end

/-! ### A round of a list callback -/

section
variable {s s' : State} {c : ℚ → List ℕ} {clock : ℚ}

/-- The item at the end of a list is the oldest. -/
theorem Ordered.last_le (h : Ordered s c clock) {m : ℚ} {i j : ℕ}
    (hlast : (c m).getLast? = some i) (hj : j ∈ c m) : s.start i ≤ s.start j := by
  obtain ⟨xs, hc⟩ := List.getLast?_eq_some_iff.mp hlast
  have hsorted := h.sorted m
  rw [hc] at hsorted hj
  rcases List.mem_append.mp hj with hj | hj
  · exact (List.pairwise_append.mp hsorted).2.2 j hj i (List.mem_singleton_self i)
  · rw [List.mem_singleton.mp hj]

theorem Ordered.peek (h : Ordered s c clock) {m : ℚ} (hm : (s.lists m).isSome = true) :
    LinkList.peek s.links (.list m) = (c m).getLast?.map .item := by
  rw [LinkList.peek_ring (h.layout.ring m hm) (by simp), List.getLast?_map]

/-- `_idlePrev` of a list is the item that has been idle for longest. -/
theorem Ordered.prev (h : Ordered s c clock) {m : ℚ} {i : ℕ} (hi : i ∈ c m) :
    ∃ oldest ∈ c m, s.links.prev (.list m) = some (.item oldest) ∧ s.start oldest ≤ s.start i := by
  have hring := (h.layout.ring m (h.layout.live_of_mem hi)).last.2
  obtain ⟨oldest, hlast⟩ : ∃ oldest, (c m).getLast? = some oldest := by
    cases hlast : (c m).getLast? with
    | none =>
      rw [List.getLast?_eq_none_iff.mp hlast] at hi
      exact absurd hi List.not_mem_nil
    | some oldest => exact ⟨oldest, rfl⟩
  refine ⟨oldest, List.mem_of_getLast? hlast, ?_, h.last_le hlast hi⟩
  obtain ⟨xs, hc⟩ := List.getLast?_eq_some_iff.mp hlast
  rw [hc, List.map_append, List.map_singleton, List.getLastD_concat] at hring
  exact hring

/-- The ways a round can go: it stops at an item that is not due, it takes a due item out of its
list, or it finds the list empty. -/
inductive Round (s : State) (msecs now : ℚ) (list : Timer) : State → Prop
  | waits {id : ℕ} {first : Item} (hpeek : LinkList.peek s.links (.list msecs) = some (.item id))
      (hfirst : s.items id = some first) (hwaits : now - first.idleStart + 1 < msecs) :
      Round s msecs now list
        { s.setList msecs (list.again (msecs - (now - first.idleStart))) with running := none }
  | due {id : ℕ} {first : Item} (hpeek : LinkList.peek s.links (.list msecs) = some (.item id))
      (hfirst : s.items id = some first) (hdue : msecs ≤ now - first.idleStart + 1) :
      Round s msecs now list
        { s with
          links := LinkList.remove s.links (.item id)
          running := some (msecs, now, if first.onTimeout then .handler else .loop) }
  | empty (hpeek : ∀ id, LinkList.peek s.links (.list msecs) ≠ some (.item id)) :
      Round s msecs now list { s.setList msecs list.stop with running := none }
  | lost {id : ℕ} (hpeek : LinkList.peek s.links (.list msecs) = some (.item id))
      (hfirst : s.items id = none) : Round s msecs now list s

theorem callbackRound_round (s : State) (msecs now : ℚ) (list : Timer) :
    Round s msecs now list (callbackRound s msecs now list) := by
  unfold callbackRound
  split
  · rename_i id hpeek
    split
    · rename_i first hfirst
      dsimp only
      split_ifs with hwaits hon
      · exact .waits hpeek hfirst hwaits
      · have h : Round s msecs now list _ := .due hpeek hfirst (not_lt.mp hwaits)
        rw [if_pos hon] at h
        exact h
      · have h : Round s msecs now list _ := .due hpeek hfirst (not_lt.mp hwaits)
        rw [if_neg hon] at h
        exact h
    · rename_i hfirst
      exact .lost hpeek hfirst
  · rename_i hpeek
    exact .empty hpeek

theorem Ordered.round (h : Ordered s c clock) {msecs now : ℚ} {list : Timer}
    (hlist : s.lists msecs = some list) (hround : Round s msecs now list s') :
    ∃ c', Ordered s' c' clock := by
  have hlists := setList_lists_isSome hlist
  cases hround with
  | waits => exact ⟨c, h.same rfl (hlists _) rfl le_rfl⟩
  | @due id =>
    have hremoved := h.without (leaves_remove h.layout id) le_rfl
    exact ⟨_, hremoved.same rfl (fun _ => rfl) rfl le_rfl⟩
  | empty => exact ⟨c, h.same rfl (hlists _) rfl le_rfl⟩
  | lost => exact ⟨c, h⟩

/-- A handler is called only for an item that is due. -/
theorem Round.called {msecs now : ℚ} {list : Timer} (h : Round s msecs now list s')
    (hrunning : s.running = some (msecs, now, .loop))
    (hcalled : s'.running = some (msecs, now, .handler)) :
    ∃ id first, LinkList.peek s.links (.list msecs) = some (.item id) ∧ s.items id = some first ∧
      first.onTimeout = true ∧ msecs ≤ now - first.idleStart + 1 := by
  cases h with
  | waits => exact absurd hcalled nofun
  | @due id first hpeek hfirst hdue =>
    refine ⟨id, first, hpeek, hfirst, ?_, hdue⟩
    by_contra hon
    dsimp only at hcalled
    rw [if_neg hon] at hcalled
    exact absurd hcalled nofun
  | empty => exact absurd hcalled nofun
  | lost => exact absurd (hrunning.symm.trans hcalled) nofun

/-- No item in the list is due when the callback returns, as none is older than the last. -/
theorem Round.returned {msecs now : ℚ} {list : Timer} (h : Round s msecs now list s')
    (hrunning : s.running = some (msecs, now, .loop)) (hreturned : s'.running = none)
    (hordered : Ordered s' c clock) {i : ℕ} (hi : i ∈ c msecs) :
    now - s'.start i + 1 < msecs := by
  have hlast := hordered.peek (hordered.layout.live_of_mem hi)
  cases h with
  | @waits id first hpeek hfirst hwaits =>
    obtain ⟨oldest, holdest, heq⟩ := Option.map_eq_some_iff.mp (hlast.symm.trans hpeek)
    obtain rfl := Node.item.inj heq
    have hle : s.start oldest ≤ s.start i := hordered.last_le holdest hi
    rw [start_eq hfirst] at hle
    have hyoung : now - s.start i + 1 < msecs := by linarith
    exact hyoung
  | due => exact absurd hreturned nofun
  | empty hpeek =>
    cases hoption : (c msecs).getLast? with
    | none =>
      rw [List.getLast?_eq_none_iff.mp hoption] at hi
      exact absurd hi List.not_mem_nil
    | some oldest =>
      rw [hoption] at hlast
      exact absurd hlast (hpeek oldest)
  | lost => exact absurd (hrunning.symm.trans hreturned) nofun

end

/-! ### Runs -/

/-- A state, and the last time that the clock has shown. -/
structure Clocked where
  state : State
  clock : ℚ

def Clocked.initial (clock : ℚ) : Clocked := ⟨State.initial, clock⟩

/-- The time at which `new Date()` is called. -/
def Action.time : Action → Option ℚ
  | .active _ now => some now
  | .setTimeout _ _ _ now => some now
  | .fire _ now => some now
  | _ => none

def Clocked.step (w : Clocked) (a : Action) : Option Clocked :=
  (Timers.step w.state a).map fun s => ⟨s, a.time.getD w.clock⟩

def Clocked.Monotone (w : Clocked) (a : Action) : Prop := ∀ now ∈ a.time, w.clock ≤ now

theorem Ordered.initial (clock : ℚ) : Ordered State.initial (fun _ => []) clock :=
  ⟨Inv.initial.layout, fun _ _ hi => absurd hi List.not_mem_nil, fun _ => List.Pairwise.nil⟩

section
variable {s s' : State} {c : ℚ → List ℕ} {clock : ℚ}

theorem Ordered.step (h : Ordered s c clock) {a : Action} (hstep : Timers.step s a = some s')
    (hle : clock ≤ a.time.getD clock) : ∃ c', Ordered s' c' (a.time.getD clock) := by
  cases steps_of_step hstep with
  | create onTimeout hid => exact ⟨c, h.setItem (h.notMem hid) _ hle⟩
  | enroll msecs => exact ⟨_, h.without (leaves_enroll h.layout _ _ msecs).1 hle⟩
  | active now => exact h.active _ _ hle
  | unenroll => exact ⟨_, h.without (leaves_unenroll h.layout _ _).1 hle⟩
  | setTimeout callback after now hid => exact h.setTimeout (h.notMem hid) callback after hle
  | clearTimeout => exact h.clearTimeout _ _
  | fire now hlist => exact ⟨c, h.same rfl (setList_lists_isSome hlist _) rfl hle⟩
  | round _ hlist => exact h.round hlist (callbackRound_round ..)
  | handlerReturns => exact ⟨c, h.same rfl (fun _ => rfl) rfl hle⟩
  | handlerThrows => exact ⟨c, h.same rfl (fun _ => rfl) rfl hle⟩

/-- A round of the loop is what `step` makes of it. -/
theorem round_of_step {msecs now : ℚ} (hrunning : s.running = some (msecs, now, .loop))
    (hstep : Timers.step s .round = some s') : ∃ list, Round s msecs now list s' := by
  cases steps_of_step hstep with
  | @round msecs' now' list hrunning' =>
    obtain ⟨rfl, rfl, -⟩ : msecs = msecs' ∧ now = now' ∧ True := by
      have heq := Option.some.inj (hrunning.symm.trans hrunning')
      simp_all
    exact ⟨list, callbackRound_round ..⟩

end

/-- In every run under a clock that does not go back the lists are in order. A round of a list
callback calls a handler only for an item that is due, and leaves none that is when it returns. -/
theorem lists_sorted {clock : ℚ} {w : Clocked}
    (h : Reach Clocked.step Clocked.Monotone (.initial clock) w) :
    (∃ c, Ordered w.state c w.clock ∧ ∀ m, ∀ i ∈ c m, ∃ oldest ∈ c m,
      w.state.links.prev (.list m) = some (.item oldest) ∧
        w.state.start oldest ≤ w.state.start i) ∧
    ∀ msecs now s', w.state.running = some (msecs, now, .loop) →
      Timers.step w.state .round = some s' →
        (s'.running = some (msecs, now, .handler) → ∃ id first,
          LinkList.peek w.state.links (.list msecs) = some (.item id) ∧
            w.state.items id = some first ∧ first.onTimeout = true ∧
              now - first.idleStart + 1 ≥ msecs) ∧
        (s'.running = none → ∀ c, Ordered s' c w.clock →
          ∀ i ∈ c msecs, ¬ now - s'.start i + 1 ≥ msecs) := by
  have hordered : ∃ c, Ordered w.state c w.clock := by
    refine h.invariant (P := fun w => ∃ c, Ordered w.state c w.clock) ⟨_, .initial clock⟩ ?_
    rintro w a w' ⟨c, hw⟩ hmono hstep
    obtain ⟨s', hs', rfl⟩ := Option.map_eq_some_iff.mp hstep
    refine hw.step hs' ?_
    cases htime : a.time with
    | none => exact le_rfl
    | some now => exact hmono now htime
  obtain ⟨c, hc⟩ := hordered
  refine ⟨⟨c, hc, fun m i hi => hc.prev hi⟩, fun msecs now s' hrunning hstep => ?_⟩
  obtain ⟨list, hround⟩ := round_of_step hrunning hstep
  refine ⟨hround.called hrunning, fun hreturned c' hc' i hi => ?_⟩
  exact not_le.mpr (hround.returned hrunning hreturned hc' hi)

theorem lists_sorted_two : ∃ w, run Clocked.step (.initial 0) [.create 0 true, .enroll 0 (some 100),
    .active 0 5, .setTimeout 1 true (some 100) 7, .fire 100 120] = some w ∧
      ∃ c, Ordered w.state c 120 := by
  obtain ⟨w, hw⟩ : ∃ w, run Clocked.step (.initial 0) [.create 0 true, .enroll 0 (some 100),
    .active 0 5, .setTimeout 1 true (some 100) 7, .fire 100 120] = some w := ⟨_, rfl⟩
  have hclock : w.clock = 120 := by
    obtain rfl := Option.some.inj hw
    rfl
  have hreach : Reach Clocked.step Clocked.Monotone (.initial 0) w := by
    refine reach_of_along hw <| along_cons rfl ?_ <| along_cons rfl ?_ <| along_cons rfl ?_ <|
      along_cons rfl ?_ <| along_cons rfl ?_ trivial
    all_goals
      intro now hnow
      cases hnow
    all_goals
      decide +kernel
  obtain ⟨⟨c, hc, -⟩, -⟩ := lists_sorted hreach
  exact ⟨w, hw, c, hclock ▸ hc⟩

end NodeJS.Timers
