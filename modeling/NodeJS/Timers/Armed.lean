import NodeJS.Timers.Idle
import NodeJS.Lib.Reach
import Mathlib.Tactic.Linarith

/-! Which runs keep every non-empty idle list armed. -/
namespace NodeJS.Timers
open Lib

/-- The links of all lists and items at once: every list that exists is a ring through its
items, an item is in at most one list, and an item in no list is null or linked to itself. -/
structure Layout (k : Links Node) (live : ℚ → Prop) (c : ℚ → List ℕ) : Prop where
  ring : ∀ m, live m → k.Seg (.list m) ((c m).map .item) (.list m)
  absent : ∀ m, ¬ live m → c m = []
  nodup : ∀ m, (c m).Nodup
  unique : ∀ i m m', i ∈ c m → i ∈ c m' → m = m'
  loose : ∀ i, (∀ m, i ∉ c m) →
    (k.next (.item i) = none ∧ k.prev (.item i) = none) ∨ k.Link (.item i) (.item i)

variable {k : Links Node} {live : ℚ → Prop} {c : ℚ → List ℕ}

theorem nodup_ring {l : List ℕ} (h : l.Nodup) (m : ℚ) :
    (Node.list m :: l.map Node.item).Nodup := by
  refine List.nodup_cons.mpr ⟨by simp, h.map ?_⟩
  intro i j hij
  exact Node.item.inj hij

theorem Layout.live_of_mem (h : Layout k live c) {i : ℕ} {m : ℚ} (hi : i ∈ c m) : live m := by
  by_contra hm
  simp [h.absent m hm] at hi

theorem Layout.next_isSome (h : Layout k live c) {i : ℕ} {m : ℚ} (hi : i ∈ c m) :
    (k.next (.item i)).isSome := by
  obtain ⟨xs, ys, hc⟩ := List.append_of_mem hi
  have hr := h.ring m (h.live_of_mem hi)
  rw [hc, List.map_append, List.map_cons, Links.seg_append_cons] at hr
  simp [hr.2.first.1]

/-- The rings of two lists share no node. -/
theorem Layout.disjoint (h : Layout k live c) {m m' : ℚ} (hmm : m' ≠ m) {z : Node}
    (hz : z ∈ Node.list m' :: (c m').map Node.item) :
    z ∉ Node.list m :: (c m).map Node.item := by
  intro hz'
  simp only [List.mem_cons, List.mem_map] at hz hz'
  rcases hz with rfl | ⟨j, hj, rfl⟩ <;> rcases hz' with hz' | ⟨j', hj', hz'⟩
  · exact hmm (Node.list.inj hz')
  · cases hz'
  · cases hz'
  · obtain rfl := Node.item.inj hz'
    exact hmm (h.unique _ m' m hj hj')

theorem Layout.remove_member (h : Layout k live c) {i : ℕ} {m : ℚ} (hi : i ∈ c m) :
    (LinkList.remove k (.item i)).Seg (.list m) (((c m).erase i).map .item) (.list m) ∧
    ∀ z, z ∉ Node.list m :: (c m).map Node.item →
      (LinkList.remove k (.item i)).next z = k.next z ∧
      (LinkList.remove k (.item i)).prev z = k.prev z := by
  obtain ⟨xs, ys, hc⟩ := List.append_of_mem hi
  have hr := h.ring m (h.live_of_mem hi)
  have hnd := h.nodup m
  have hnr := nodup_ring hnd m
  rw [hc, List.map_append, List.map_cons] at hr hnr
  have hx : i ∉ xs := by
    intro hx
    rw [hc, List.nodup_append] at hnd
    exact hnd.2.2 i hx i (by simp) rfl
  have hce : (c m).erase i = xs ++ ys := by
    rw [hc, List.erase_append_right _ hx, List.erase_cons_head]
  rw [hce, List.map_append]
  refine ⟨LinkList.remove_ring hr hnr, fun z hz => ?_⟩
  rw [hc, List.map_append, List.map_cons] at hz
  exact LinkList.remove_ring_frame hr hnr hz

theorem Layout.remove_nonmember (h : Layout k live c) {i : ℕ} (hi : ∀ m, i ∉ c m) {z : Node}
    (hz : z ≠ .item i) :
    (LinkList.remove k (.item i)).next z = k.next z ∧
    (LinkList.remove k (.item i)).prev z = k.prev z := by
  rw [LinkList.remove_loose (h.loose i hi)]
  simp [Links.setNext_next, Links.setPrev_prev, hz]

/-- `L.remove` leaves the links of everything that is not in a list with the item. -/
theorem Layout.remove_frame (h : Layout k live c) {i : ℕ} {z : Node} (hz : z ≠ .item i)
    (hm : ∀ m, i ∈ c m → z ∉ Node.list m :: (c m).map Node.item) :
    (LinkList.remove k (.item i)).next z = k.next z ∧
    (LinkList.remove k (.item i)).prev z = k.prev z := by
  by_cases hi : ∃ m, i ∈ c m
  · obtain ⟨m, hi⟩ := hi
    exact (h.remove_member hi).2 z (hm m hi)
  · exact h.remove_nonmember (not_exists.mp hi) hz

/-- `L.remove` takes an item out of the list it is in, if any. -/
theorem Layout.remove (h : Layout k live c) (i : ℕ) :
    Layout (LinkList.remove k (.item i)) live (fun m => (c m).erase i) := by
  have hsub : ∀ {j m}, j ∈ (c m).erase i → j ∈ c m := List.mem_of_mem_erase
  have hself : (LinkList.remove k (.item i)).next (.item i) = none ∧
      (LinkList.remove k (.item i)).prev (.item i) = none :=
    ⟨LinkList.remove_next_self .., LinkList.remove_prev_self ..⟩
  refine ⟨fun m hm => ?_, fun m hm => ?_, fun m => (h.nodup m).erase i,
    fun j m m' hj hj' => h.unique j m m' (hsub hj) (hsub hj'), fun j hj => ?_⟩
  · by_cases hi : i ∈ c m
    · exact (h.remove_member hi).1
    · rw [List.erase_of_not_mem hi]
      refine (h.ring m hm).congr_ring fun z hz => h.remove_frame ?_ fun m' hm' => ?_
      · rintro rfl
        simp [hi] at hz
      · refine h.disjoint ?_ hz
        rintro rfl
        exact hi hm'
  · simp [h.absent m hm]
  · by_cases hji : j = i
    · exact Or.inl (hji ▸ hself)
    · have hj' : ∀ m, j ∉ c m := fun m hm => hj m ((List.mem_erase_of_ne hji).mpr hm)
      have hk := h.remove_frame (z := .item j) (by simpa using hji) (fun m _ => by simpa using hj' m)
      rw [Links.Link, hk.1, hk.2]
      exact h.loose j hj'

/-- `L.append` moves an item to the front of a list that exists. -/
theorem Layout.append (h : Layout k live c) (i : ℕ) {m : ℚ} (hm : live m) :
    Layout (LinkList.append k (.list m) (.item i)) live
      (Function.update (fun m => (c m).erase i) m (i :: (c m).erase i)) := by
  have hrem := h.remove i
  have hi : ∀ m', i ∉ (c m').erase i := fun m' => (h.nodup m').not_mem_erase
  have hr := hrem.ring m hm
  have hx : Node.item i ∉ Node.list m :: ((c m).erase i).map Node.item := by
    simpa using hi m
  have hframe : ∀ z, z ∉ Node.list m :: Node.item i :: ((c m).erase i).map Node.item →
      (LinkList.append k (.list m) (.item i)).next z =
        (LinkList.remove k (.item i)).next z ∧
      (LinkList.append k (.list m) (.item i)).prev z =
        (LinkList.remove k (.item i)).prev z :=
    fun z hz => LinkList.append_ring_frame hr hx hz
  refine ⟨fun m' hm' => ?_, fun m' hm' => ?_, fun m' => ?_, fun j m₁ m₂ h₁ h₂ => ?_,
    fun j hj => ?_⟩
  · by_cases hmm : m' = m
    · subst hmm
      rw [Function.update_self]
      exact LinkList.append_ring hr (nodup_ring (hrem.nodup m') m') hx
    · rw [Function.update_of_ne hmm]
      refine (hrem.ring m' hm').congr_ring fun z hz => hframe z ?_
      have hz' := hrem.disjoint hmm hz
      have hzi : z ≠ .item i := by
        rintro rfl
        simp [hi m'] at hz
      simp only [List.mem_cons, not_or] at hz' ⊢
      exact ⟨hz'.1, hzi, hz'.2⟩
  · rw [Function.update_of_ne (by rintro rfl; exact hm' hm)]
    exact hrem.absent m' hm'
  · by_cases hmm : m' = m
    · subst hmm
      rw [Function.update_self]
      exact List.nodup_cons.mpr ⟨hi m', hrem.nodup m'⟩
    · rw [Function.update_of_ne hmm]
      exact hrem.nodup m'
  · by_cases hji : j = i
    · have hj : ∀ m', j ∈ Function.update (fun m => (c m).erase i) m (i :: (c m).erase i) m' →
          m' = m := by
        intro m' hj
        by_contra hmm
        rw [Function.update_of_ne hmm, hji] at hj
        exact hi m' hj
      rw [hj m₁ h₁, hj m₂ h₂]
    · have hj : ∀ m', j ∈ Function.update (fun m => (c m).erase i) m (i :: (c m).erase i) m' →
          j ∈ (c m').erase i := by
        intro m' hj
        by_cases hmm : m' = m
        · subst hmm
          rw [Function.update_self] at hj
          exact (List.mem_cons.mp hj).resolve_left hji
        · rwa [Function.update_of_ne hmm] at hj
      exact hrem.unique j m₁ m₂ (hj m₁ h₁) (hj m₂ h₂)
  · have hjm := hj m
    rw [Function.update_self, List.mem_cons, not_or] at hjm
    have hj' : ∀ m', j ∉ (c m').erase i := by
      intro m'
      by_cases hmm : m' = m
      · exact hmm ▸ hjm.2
      · have := hj m'
        rwa [Function.update_of_ne hmm] at this
    have hk := hframe (.item j) (by simpa using hjm)
    rw [Links.Link, hk.1, hk.2]
    exact hrem.loose j hj'

theorem Layout.init_item (h : Layout k live c) {i : ℕ} (hi : ∀ m, i ∉ c m) :
    Layout (LinkList.init k (.item i)) live c := by
  have hother : ∀ z, z ≠ .item i → (LinkList.init k (.item i)).next z = k.next z ∧
      (LinkList.init k (.item i)).prev z = k.prev z := by
    intro z hz
    simp [LinkList.init, Links.setNext_next, Links.setPrev_prev, hz]
  refine ⟨fun m hm => ?_, h.absent, h.nodup, h.unique, fun j hj => ?_⟩
  · refine (h.ring m hm).congr_ring fun z hz => hother z ?_
    rintro rfl
    simp [hi m] at hz
  · by_cases hji : j = i
    · right
      simp [Links.Link, LinkList.init, Links.setNext_next, Links.setPrev_prev, hji]
    · have hk := hother (.item j) (by simpa using hji)
      rw [Links.Link, hk.1, hk.2]
      exact h.loose j hj

theorem Layout.init_list (h : Layout k live c) {m : ℚ} (hm : ¬ live m) :
    Layout (LinkList.init k (.list m)) (fun m' => m' = m ∨ live m') c := by
  have hother : ∀ z, z ≠ .list m → (LinkList.init k (.list m)).next z = k.next z ∧
      (LinkList.init k (.list m)).prev z = k.prev z := by
    intro z hz
    simp [LinkList.init, Links.setNext_next, Links.setPrev_prev, hz]
  refine ⟨fun m' hm' => ?_, fun m' hm' => h.absent m' (not_or.mp hm').2, h.nodup, h.unique,
    fun j hj => ?_⟩
  · by_cases hmm : m' = m
    · subst hmm
      rw [h.absent m' hm]
      simp [Links.Seg, Links.Link, LinkList.init, Links.setNext_next, Links.setPrev_prev]
    · refine (h.ring m' (hm'.resolve_left hmm)).congr_ring fun z hz => hother z ?_
      rintro rfl
      simp [Ne.symm hmm] at hz
  · have hk := hother (.item j) (by simp)
    rw [Links.Link, hk.1, hk.2]
    exact h.loose j hj

/-- What every safe run keeps: the layout of the links, each item in the list of its own
timeout, and an armed repeating timer for each list that holds an item. -/
structure Inv (s : State) (c : ℚ → List ℕ) : Prop where
  layout : Layout s.links (fun m => (s.lists m).isSome = true) c
  timeout : ∀ m i, i ∈ c m → ∃ it, s.items i = some it ∧ it.idleTimeout = some m
  armed : ∀ m t, s.lists m = some t → c m ≠ [] → t.active = true
  repeating : ∀ m t, s.lists m = some t → t.active = true → t.repeatTime ≠ 0

variable {s : State}

theorem Timer.again_of_pos (t : Timer) {msecs : ℚ} (h : 0 < msecs) :
    t.again msecs = ⟨true, msecs⟩ := by
  unfold Timer.again
  simp [h, h.ne']

theorem Inv.initial : Inv State.initial (fun _ => []) := by
  refine ⟨⟨fun m hm => ?_, fun _ _ => rfl, fun _ => List.nodup_nil, fun i m m' hi => ?_,
    fun i _ => Or.inl ⟨rfl, rfl⟩⟩, fun m i hi => ?_, fun m t ht => ?_, fun m t ht => ?_⟩
  · cases hm
  · cases hi
  · cases hi
  · cases ht
  · cases ht

theorem Inv.isEmpty_iff (h : Inv s c) {m : ℚ} {t : Timer} (ht : s.lists m = some t) :
    LinkList.isEmpty s.links (.list m) = true ↔ c m = [] := by
  have hring := h.layout.ring m (by simp [ht])
  have hlist : Node.list m ∉ (c m).map Node.item := by simp
  rw [LinkList.isEmpty_ring hring hlist, List.map_eq_nil_iff]

theorem Inv.running (h : Inv s c) (r : Option (ℚ × ℚ × Phase)) :
    Inv { s with running := r } c :=
  ⟨h.layout, h.timeout, h.armed, h.repeating⟩

theorem Inv.setItem (h : Inv s c) {id : ℕ} {it : Item}
    (hid : ∀ m, id ∈ c m → it.idleTimeout = some m) : Inv (s.setItem id it) c := by
  refine ⟨h.layout, fun m i hi => ?_, h.armed, h.repeating⟩
  unfold State.setItem
  by_cases hii : i = id
  · subst hii
    exact ⟨it, Function.update_self .., hid m hi⟩
  · obtain ⟨it', hit, hm⟩ := h.timeout m i hi
    refine ⟨it', ?_, hm⟩
    dsimp only
    rw [Function.update_of_ne hii, hit]

/-- An update of an item that keeps its timeout. -/
theorem Inv.setItem_of_eq (h : Inv s c) {id : ℕ} {it it' : Item} (hit : s.items id = some it)
    (he : it'.idleTimeout = it.idleTimeout) : Inv (s.setItem id it') c := by
  apply h.setItem
  intro m hm
  obtain ⟨it₀, h₀, hm₀⟩ := h.timeout m id hm
  obtain rfl : it = it₀ := Option.some.inj (hit.symm.trans h₀)
  rw [he, hm₀]

theorem setItem_items_self (s : State) (id : ℕ) (it : Item) :
    (s.setItem id it).items id = some it :=
  Function.update_self ..

theorem setList_isSome {m : ℚ} {t t' : Timer} (ht : s.lists m = some t) :
    (fun m' => ((s.setList m t').lists m').isSome = true) =
      fun m' => (s.lists m').isSome = true := by
  funext m'
  unfold State.setList
  by_cases hm : m' = m
  · subst hm
    simp [ht]
  · simp [Function.update_of_ne hm]

theorem setList_lists {m m' : ℚ} {t t' : Timer} (h : (s.setList m t').lists m' = some t) :
    (m' = m ∧ t = t') ∨ s.lists m' = some t := by
  unfold State.setList at h
  dsimp only at h
  by_cases hm : m' = m
  · rw [hm, Function.update_self] at h
    exact Or.inl ⟨hm, (Option.some.inj h).symm⟩
  · rw [Function.update_of_ne hm] at h
    exact Or.inr h

theorem Inv.setList (h : Inv s c) {m : ℚ} {t t' : Timer} (ht : s.lists m = some t)
    (ha : c m ≠ [] → t'.active = true) (hr : t'.active = true → t'.repeatTime ≠ 0) :
    Inv (s.setList m t') c := by
  refine ⟨?_, h.timeout, fun m' t₁ h₁ hc => ?_, fun m' t₁ h₁ hact => ?_⟩
  · rw [setList_isSome ht]
    exact h.layout
  · rcases setList_lists h₁ with ⟨hm, ht₁⟩ | h₁
    · rw [ht₁]
      exact ha (hm ▸ hc)
    · exact h.armed m' t₁ h₁ hc
  · rcases setList_lists h₁ with ⟨hm, ht₁⟩ | h₁
    · rw [ht₁] at hact ⊢
      exact hr hact
    · exact h.repeating m' t₁ h₁ hact

theorem Inv.remove (h : Inv s c) (i : ℕ) :
    Inv { s with links := LinkList.remove s.links (.item i) } (fun m => (c m).erase i) := by
  refine ⟨h.layout.remove i, fun m j hj => h.timeout m j (List.mem_of_mem_erase hj),
    fun m t ht hc => h.armed m t ht ?_, h.repeating⟩
  intro hnil
  simp [hnil] at hc

/-- `L.append` to a list whose timer is armed. -/
theorem Inv.append (h : Inv s c) {i : ℕ} {it : Item} {m : ℚ} {t : Timer}
    (ht : s.lists m = some t) (ha : t.active = true) (hit : s.items i = some it)
    (hm : it.idleTimeout = some m) :
    ∃ c, Inv { s with links := LinkList.append s.links (.list m) (.item i) } c := by
  have hlive : (s.lists m).isSome = true := by simp [ht]
  refine ⟨_, h.layout.append i hlive, fun m' j hj => ?_, fun m' t' ht' hc => ?_, h.repeating⟩
  · by_cases hmm : m' = m
    · subst hmm
      rw [Function.update_self] at hj
      rcases List.mem_cons.mp hj with hji | hj
      · exact ⟨it, hji ▸ hit, hm⟩
      · exact h.timeout m' j (List.mem_of_mem_erase hj)
    · rw [Function.update_of_ne hmm] at hj
      exact h.timeout m' j (List.mem_of_mem_erase hj)
  · by_cases hmm : m' = m
    · subst hmm
      obtain rfl : t = t' := Option.some.inj (ht.symm.trans ht')
      exact ha
    · rw [Function.update_of_ne hmm] at hc
      apply h.armed m' t' ht'
      intro hnil
      simp [hnil] at hc

/-- A new empty list, as `insert` makes it. -/
theorem Inv.newList (h : Inv s c) {m : ℚ} (hm : s.lists m = none) :
    Inv (State.setList { s with links := LinkList.init s.links (.list m) } m .new) c := by
  have hnone : ¬ (s.lists m).isSome = true := by simp [hm]
  have hnil := h.layout.absent m hnone
  have hlayout := h.layout.init_list hnone
  refine ⟨?_, h.timeout, fun m' t ht hc => ?_, fun m' t ht ha => ?_⟩
  · have hlive : (fun m' => (Function.update s.lists m (some Timer.new) m').isSome = true) =
        fun m' => m' = m ∨ (s.lists m').isSome = true := by
      funext m'
      by_cases hmm : m' = m
      · simp [hmm]
      · simp [hmm]
    exact hlive ▸ hlayout
  · rcases setList_lists ht with ⟨hmm, _⟩ | ht
    · rw [hmm] at hc
      exact absurd hnil hc
    · exact h.armed m' t ht hc
  · rcases setList_lists ht with ⟨_, rfl⟩ | ht
    · cases ha
    · exact h.repeating m' t ht ha

theorem Inv.insert (h : Inv s c) {id : ℕ} {it : Item} {msecs now : ℚ}
    (hit : s.items id = some it) (hm : it.idleTimeout = some msecs) (hpos : 0 < msecs) :
    ∃ c, Inv (insert s id it msecs now) c := by
  unfold Timers.insert
  have h₁ : Inv (s.setItem id { it with idleStart := now, idleTimeout := some msecs }) c :=
    h.setItem_of_eq hit hm.symm
  have hit₁ := setItem_items_self s id { it with idleStart := now, idleTimeout := some msecs }
  generalize s.setItem id { it with idleStart := now, idleTimeout := some msecs } = s₁ at h₁ hit₁
  rw [if_neg (not_lt.mpr hpos.le)]
  have key : ∀ (s₂ : State) (list : Timer), Inv s₂ c → s₂.items = s₁.items →
      s₂.lists msecs = some list → ∃ c, Inv { (if LinkList.isEmpty s₂.links (.list msecs) then
        s₂.setList msecs (list.again msecs) else s₂) with
          links := LinkList.append (if LinkList.isEmpty s₂.links (.list msecs) then
            s₂.setList msecs (list.again msecs) else s₂).links (.list msecs) (.item id) } c := by
    intro s₂ list h₂ hi₂ hl₂
    by_cases he : LinkList.isEmpty s₂.links (.list msecs) = true
    · have hagain := list.again_of_pos hpos
      have h₃ : Inv (s₂.setList msecs (list.again msecs)) c := by
        refine h₂.setList hl₂ (fun _ => ?_) (fun _ => ?_)
        · rw [hagain]
        · rw [hagain]
          exact hpos.ne'
      have hact : (list.again msecs).active = true := by rw [hagain]
      have hit₂ : (s₂.setList msecs (list.again msecs)).items id =
          some { it with idleStart := now, idleTimeout := some msecs } := hi₂ ▸ hit₁
      rw [if_pos he]
      exact h₃.append (Function.update_self ..) hact hit₂ rfl
    · have hne : c msecs ≠ [] := fun hnil => he ((h₂.isEmpty_iff hl₂).mpr hnil)
      rw [if_neg he]
      exact h₂.append hl₂ (h₂.armed msecs list hl₂ hne) (hi₂ ▸ hit₁) rfl
  cases hl : s₁.lists msecs with
  | some list => exact key s₁ list h₁ rfl hl
  | none => exact key _ .new (h₁.newList hl) rfl (Function.update_self ..)

theorem Inv.unenroll (h : Inv s c) (id : ℕ) (it : Item) :
    Inv (unenroll s id it) (fun m => (c m).erase id) := by
  have h₁ := h.remove id
  unfold Timers.unenroll State.listOf
  cases hm : it.idleTimeout with
  | none => exact h₁
  | some m =>
    cases hl : s.lists m with
    | none => simpa [hl] using h₁
    | some list =>
      simp only [hl, Option.bind_eq_bind, Option.bind_some, Option.pure_def]
      split_ifs with he
      · have hnil := (h₁.isEmpty_iff hl).mp he
        refine h₁.setList hl (fun hne => absurd hnil hne) (fun ha => ?_)
        cases ha
      · exact h₁

theorem Inv.init_item (h : Inv s c) {id : ℕ} (hid : ∀ m, id ∉ c m) :
    Inv { s with links := LinkList.init s.links (.item id) } c :=
  ⟨h.layout.init_item hid, h.timeout, h.armed, h.repeating⟩

theorem Inv.enroll (h : Inv s c) {id : ℕ} {it : Item} (msecs : Option ℚ) :
    ∃ c, Inv (enroll s id it msecs) c := by
  unfold Timers.enroll
  have key : ∀ (s₁ : State) (c₁ : ℚ → List ℕ), Inv s₁ c₁ → (∀ m, id ∉ c₁ m) →
      ∃ c, Inv { s₁.setItem id { it with idleTimeout := msecs } with
        links := LinkList.init (s₁.setItem id { it with idleTimeout := msecs }).links
          (.item id) } c := by
    intro s₁ c₁ h₁ hid
    have h₂ : Inv (s₁.setItem id { it with idleTimeout := msecs }) c₁ :=
      h₁.setItem fun m hm => absurd hm (hid m)
    exact ⟨c₁, h₂.init_item hid⟩
  by_cases hn : (s.links.next (.item id)).isSome = true
  · rw [if_pos hn]
    exact key _ _ (h.unenroll id it) (fun m => (h.layout.nodup m).not_mem_erase)
  · rw [if_neg hn]
    exact key s c h (fun m hm => hn (h.layout.next_isSome hm))

/-- When `active` does not put an item into a list that nothing will wake: a freshly enrolled
item has a timeout other than zero, and the list of an item that has been taken out of its list
is running. -/
def ActiveSafe (s : State) (id : ℕ) : Prop :=
  ∀ it msecs, s.items id = some it → it.idleTimeout = some msecs → 0 ≤ msecs →
    (s.links.next (.item id) = some (.item id) → msecs ≠ 0) ∧
    (s.links.next (.item id) = none → ∀ t, s.lists msecs = some t →
      LinkList.isEmpty s.links (.list msecs) = true → t.active = true)

/-- The list that the second branch of `active` appends to is running. -/
theorem Inv.active_armed (h : Inv s c) {id : ℕ} {it : Item} {msecs : ℚ} {t : Timer}
    (hit : s.items id = some it) (hm : it.idleTimeout = some msecs) (hle : 0 ≤ msecs)
    (hself : s.links.next (.item id) ≠ some (.item id)) (hl : s.lists msecs = some t)
    (hsafe : ActiveSafe s id) : t.active = true := by
  by_cases hnil : c msecs = []
  · have hout : ∀ m, id ∉ c m := by
      intro m hid
      obtain ⟨it', hit', hm'⟩ := h.timeout m id hid
      obtain rfl : it = it' := Option.some.inj (hit.symm.trans hit')
      obtain rfl : msecs = m := Option.some.inj (hm.symm.trans hm')
      simp [hnil] at hid
    have hnone : s.links.next (.item id) = none := by
      rcases h.layout.loose id hout with hnone | hlink
      · exact hnone.1
      · exact absurd hlink.1 hself
    exact (hsafe it msecs hit hm hle).2 hnone t hl ((h.isEmpty_iff hl).mpr hnil)
  · exact h.armed msecs t hl hnil

theorem Inv.active (h : Inv s c) {id : ℕ} {it : Item} (now : ℚ) (hit : s.items id = some it)
    (hsafe : ActiveSafe s id) : ∃ c, Inv (active s id it now) c := by
  unfold Timers.active
  cases hm : it.idleTimeout with
  | none => exact ⟨c, h⟩
  | some msecs =>
    dsimp only
    split_ifs with hneg hself
    · exact ⟨c, h⟩
    · have hle := not_lt.mp hneg
      have hne := (hsafe it msecs hit hm hle).1 hself
      exact h.insert hit hm (lt_of_le_of_ne hle hne.symm)
    · have h₁ : Inv (s.setItem id { it with idleStart := now, idleTimeout := some msecs }) c :=
        h.setItem_of_eq hit hm.symm
      have hit₁ := setItem_items_self s id { it with idleStart := now, idleTimeout := some msecs }
      have hlists : (s.setItem id { it with idleStart := now, idleTimeout := some msecs }).lists =
        s.lists := rfl
      generalize s.setItem id { it with idleStart := now, idleTimeout := some msecs } = s₁
        at h₁ hit₁ hlists
      cases hl : s₁.lists msecs with
      | none => exact ⟨_, h₁.remove id⟩
      | some t =>
        have hl' : s.lists msecs = some t := hlists ▸ hl
        have ha := h.active_armed hit hm (not_lt.mp hneg) hself hl' hsafe
        exact h₁.append hl ha hit₁ rfl

theorem Inv.notMem (h : Inv s c) {id : ℕ} (hid : s.items id = none) (m : ℚ) : id ∉ c m := by
  intro hm
  obtain ⟨it, hit, _⟩ := h.timeout m id hm
  simp [hid] at hit

/-- The object made by `setTimeout` is linked to itself, and its timeout is not zero. -/
theorem Inv.setTimeout (h : Inv s c) {id : ℕ} (callback : Bool) (after : Option ℚ) (now : ℚ)
    (hid : s.items id = none) : ∃ c, Inv (setTimeout s id callback after now) c := by
  have hout := h.notMem hid
  unfold Timers.setTimeout
  split_ifs with hle
  · exact ⟨c, h.setItem fun m hm => absurd hm (hout m)⟩
  · have h₁ : Inv (s.setItem id ⟨after, 0, callback, false, none⟩) c :=
      h.setItem fun m hm => absurd hm (hout m)
    have hit₁ := setItem_items_self s id ⟨after, 0, callback, false, none⟩
    apply (h₁.init_item hout).active now hit₁
    intro it msecs hit hm _
    obtain rfl := Option.some.inj (hit₁.symm.trans hit)
    dsimp only at hm
    refine ⟨fun _ hzero => hle ?_, fun hnone => ?_⟩
    · simp [hm, hzero]
    · simp [LinkList.init, Links.setNext_next] at hnone

theorem Inv.clearTimeout (h : Inv s c) {id : ℕ} {it : Item} (hit : s.items id = some it) :
    ∃ c, Inv (clearTimeout s id it) c := by
  unfold Timers.clearTimeout
  split_ifs
  · have h₁ : Inv (s.setItem id { it with callback := false, onTimeout := false }) c :=
      h.setItem_of_eq hit rfl
    have h₂ := h₁.unenroll id { it with callback := false, onTimeout := false }
    refine ⟨_, h₂.setItem fun m hm => ?_⟩
    exact absurd hm ((h.layout.nodup m).not_mem_erase)
  · exact ⟨c, h⟩

theorem Inv.callbackRound (h : Inv s c) {msecs : ℚ} (now : ℚ) {list : Timer}
    (hl : s.lists msecs = some list) : ∃ c, Inv (callbackRound s msecs now list) c := by
  have hring := h.layout.ring msecs (by simp [hl])
  have hlist : Node.list msecs ∉ (c msecs).map Node.item := by simp
  have hpeek := LinkList.peek_ring hring hlist
  unfold Timers.callbackRound
  rw [hpeek, List.getLast?_map]
  cases hlast : (c msecs).getLast? with
  | none =>
    have hnil : c msecs = [] := List.getLast?_eq_none_iff.mp hlast
    refine ⟨c, (h.setList hl (fun hne => absurd hnil hne) fun ha => ?_).running none⟩
    cases ha
  | some id =>
    obtain ⟨first, hfirst, _⟩ := h.timeout msecs id (List.mem_of_getLast? hlast)
    simp only [Option.map_some, hfirst]
    split_ifs with hdiff
    · have hpos : 0 < msecs - (now - first.idleStart) := by linarith
      have hagain := list.again_of_pos hpos
      refine ⟨c, (h.setList hl (fun _ => ?_) fun _ => ?_).running none⟩
      · rw [hagain]
      · rw [hagain]
        exact hpos.ne'
    · exact ⟨_, (h.remove id).running _⟩
    · exact ⟨_, (h.remove id).running _⟩

/-- The condition on a step: only `active` can leave a list that holds an item asleep. -/
def Safe (s : State) : Action → Prop
  | .active id _ => ActiveSafe s id
  | _ => True

theorem call_eq_some {s s' : State} {id : ℕ} {f : Item → State} (h : s.call id f = some s') :
    ∃ it, s.items id = some it ∧ s' = f it := by
  unfold State.call at h
  split_ifs at h
  obtain ⟨it, hit, hf⟩ := Option.map_eq_some_iff.mp h
  exact ⟨it, hit, hf.symm⟩

/-- What each action does in a state that it is enabled in. -/
inductive Steps (s : State) : Action → State → Prop
  | create {id : ℕ} (onTimeout : Bool) (hid : s.items id = none) :
      Steps s (.create id onTimeout) (s.setItem id ⟨none, 0, onTimeout, false, none⟩)
  | enroll {id : ℕ} {it : Item} (msecs : Option ℚ) (hit : s.items id = some it) :
      Steps s (.enroll id msecs) (enroll s id it msecs)
  | active {id : ℕ} {it : Item} (now : ℚ) (hit : s.items id = some it) :
      Steps s (.active id now) (active s id it now)
  | unenroll {id : ℕ} {it : Item} (hit : s.items id = some it) :
      Steps s (.unenroll id) (unenroll s id it)
  | setTimeout {id : ℕ} (callback : Bool) (after : Option ℚ) (now : ℚ) (hid : s.items id = none) :
      Steps s (.setTimeout id callback after now) (setTimeout s id callback after now)
  | clearTimeout {id : ℕ} {it : Item} (hit : s.items id = some it) :
      Steps s (.clearTimeout id) (clearTimeout s id it)
  | fire {msecs : ℚ} {list : Timer} (now : ℚ) (hlist : s.lists msecs = some list)
      (hactive : list.active = true) :
      Steps s (.fire msecs now)
        { s.setList msecs list.fire with running := some (msecs, now, .loop) }
  | round {msecs now : ℚ} {list : Timer} (hrunning : s.running = some (msecs, now, .loop))
      (hlist : s.lists msecs = some list) : Steps s .round (callbackRound s msecs now list)
  | handlerReturns {msecs now : ℚ} (hrunning : s.running = some (msecs, now, .handler)) :
      Steps s .handlerReturns { s with running := some (msecs, now, .loop) }
  | handlerThrows {msecs now : ℚ} (hrunning : s.running = some (msecs, now, .handler)) :
      Steps s .handlerThrows { s with running := none }

theorem steps_of_step {a : Action} {s' : State} (h : step s a = some s') : Steps s a s' := by
  cases a with
  | create id onTimeout =>
    simp only [Timers.step, Bool.and_eq_true, Option.isNone_iff_eq_none,
      Option.ite_none_right_eq_some, Option.some.injEq] at h
    obtain ⟨⟨-, hid⟩, rfl⟩ := h
    exact .create onTimeout hid
  | enroll id msecs =>
    obtain ⟨it, hit, rfl⟩ := call_eq_some h
    exact .enroll msecs hit
  | active id now =>
    obtain ⟨it, hit, rfl⟩ := call_eq_some h
    exact .active now hit
  | unenroll id =>
    obtain ⟨it, hit, rfl⟩ := call_eq_some h
    exact .unenroll hit
  | setTimeout id callback after now =>
    simp only [Timers.step, Bool.and_eq_true, Option.isNone_iff_eq_none,
      Option.ite_none_right_eq_some, Option.some.injEq] at h
    obtain ⟨⟨-, hid⟩, rfl⟩ := h
    exact .setTimeout callback after now hid
  | clearTimeout id =>
    obtain ⟨it, hit, rfl⟩ := call_eq_some h
    exact .clearTimeout hit
  | fire msecs now =>
    unfold Timers.step at h
    dsimp only at h
    split at h
    · rename_i list _ hlist
      simp only [Option.ite_none_right_eq_some, Option.some.injEq] at h
      obtain ⟨hactive, rfl⟩ := h
      exact .fire now hlist hactive
    · cases h
  | round =>
    unfold Timers.step at h
    dsimp only at h
    split at h
    · rename_i hrunning
      obtain ⟨list, hlist, rfl⟩ := Option.map_eq_some_iff.mp h
      exact .round hrunning hlist
    · cases h
  | handlerReturns =>
    unfold Timers.step at h
    dsimp only at h
    split at h
    · rename_i hrunning
      obtain rfl := Option.some.inj h
      exact .handlerReturns hrunning
    · cases h
  | handlerThrows =>
    unfold Timers.step at h
    dsimp only at h
    split at h
    · rename_i hrunning
      obtain rfl := Option.some.inj h
      exact .handlerThrows hrunning
    · cases h

theorem Inv.step (h : Inv s c) {a : Action} {s' : State} (hsafe : Safe s a)
    (hstep : step s a = some s') : ∃ c, Inv s' c := by
  cases steps_of_step hstep with
  | create onTimeout hid => exact ⟨c, h.setItem fun m hm => absurd hm (h.notMem hid m)⟩
  | enroll msecs => exact h.enroll msecs
  | active now hit => exact h.active now hit hsafe
  | unenroll => exact ⟨_, h.unenroll _ _⟩
  | setTimeout callback after now hid => exact h.setTimeout callback after now hid
  | clearTimeout hit => exact h.clearTimeout hit
  | @fire msecs list now hlist hactive =>
    have hrep := h.repeating msecs list hlist hactive
    have hfire : list.fire = list := by
      unfold Timer.fire
      rw [if_neg hrep]
    rw [hfire]
    exact ⟨c, (h.setList hlist (fun _ => hactive) fun _ => hrep).running _⟩
  | round _ hlist => exact h.callbackRound _ hlist
  | handlerReturns => exact ⟨c, h.running _⟩
  | handlerThrows => exact ⟨c, h.running _⟩

/-- Every list that holds an item has its timer running. -/
def Armed (s : State) : Prop :=
  ∀ m t, s.lists m = some t → LinkList.isEmpty s.links (.list m) = false → t.active = true

theorem Inv.armed_lists (h : Inv s c) : Armed s := by
  intro m t ht he
  refine h.armed m t ht fun hnil => ?_
  have := (h.isEmpty_iff ht).mpr hnil
  simp [he] at this

theorem reach_inv (h : Reach Timers.step Safe State.initial s) : ∃ c, Inv s c :=
  h.invariant (P := fun s => ∃ c, Inv s c) ⟨_, Inv.initial⟩
    fun _ _ _ ⟨_, hi⟩ hsafe hstep => hi.step hsafe hstep

/-- In a run whose every `active` is safe no item that waits in a list is forgotten. -/
theorem armed_of_reach_safe (s : State) (h : Reach Timers.step Safe State.initial s) : Armed s := by
  obtain ⟨c, hinv⟩ := reach_inv h
  exact hinv.armed_lists

theorem armed_of_reach_safe_active :
    ∃ s, Reach Timers.step Safe State.initial s ∧
      LinkList.isEmpty s.links (.list 100) = false ∧ Armed s := by
  let it : Item := ⟨none, 0, true, false, none⟩
  let s₁ := State.initial.setItem 0 it
  let s₂ := enroll s₁ 0 it (some 100)
  let s₃ := active s₂ 0 { it with idleTimeout := some 100 } 5
  have hsafe : ActiveSafe s₂ 0 := by
    intro it' msecs hit hm _
    obtain rfl : { it with idleTimeout := some 100 } = it' := Option.some.inj hit
    obtain rfl : 100 = msecs := Option.some.inj hm
    refine ⟨fun _ => by decide +kernel, fun hnone => ?_⟩
    cases hnone
  have h₁ : Reach Timers.step Safe State.initial s₁ := .single ⟨.create 0 true, trivial, rfl⟩
  have h₂ : Reach Timers.step Safe State.initial s₂ :=
    h₁.tail ⟨.enroll 0 (some 100), trivial, rfl⟩
  have h₃ : Reach Timers.step Safe State.initial s₃ := h₂.tail ⟨.active 0 5, hsafe, rfl⟩
  exact ⟨s₃, h₃, by decide +kernel, armed_of_reach_safe s₃ h₃⟩

/-- An item whose timeout has fired is put back by `active` into a list whose timer the callback
has stopped. -/
theorem reach_not_armed :
    ¬ ∀ s, Reach Timers.step (fun _ _ => True) State.initial s → Armed s := by
  intro h
  let as : List Action := [.create 0 true, .enroll 0 (some 100), .active 0 0, .fire 100 100,
    .round, .handlerReturns, .round, .active 0 200]
  have hrun : (run Timers.step State.initial as).map (fun s =>
      ((s.lists 100).map Timer.active, LinkList.isEmpty s.links (.list 100))) =
        some (some false, false) := by decide +kernel
  obtain ⟨s, hs, hs'⟩ := Option.map_eq_some_iff.mp hrun
  obtain ⟨hlist, hempty⟩ := Prod.mk.inj hs'
  obtain ⟨t, ht, hoff⟩ := Option.map_eq_some_iff.mp hlist
  have hon := h s (reach_of_run hs fun _ _ => trivial) 100 t ht hempty
  simp [hoff] at hon

end NodeJS.Timers
