import NodeJS.Events.Emitter

/-! What the methods do to `_events`, as a list of elements under each name. -/
namespace NodeJS.Events

def elements : Option Value → List Item
  | some (.fn e) => [.fn e]
  | some (.array l) => l
  | some (.number n) => if n = 0 then [] else [.other]
  | some .object => [.other]
  | some .null => []
  | none => []

theorem elements_of_not_truthy {v : Option Value} (h : truthy v = false) : elements v = [] := by
  unfold truthy at h
  unfold elements
  split at h <;> simp_all

/-- The elements of the own property `name`. -/
def Object.items (o : Object) (name : JSString) : List Item := elements (o.own name)

section
variable {o : Object} {name n : JSString}

/-- A property is read from the object itself, or from the one it inherits from. -/
theorem Object.get_cases (o : Object) (name : JSString) :
    o.get name = o.own name ∨ o.own name = none ∧ o.get name = inherited name := by
  cases o with
  | none => exact .inl rfl
  | some own =>
    cases hown : own name with
    | none => exact .inr ⟨hown, by simp [Object.get, hown]⟩
    | some v => exact .inl (by simp [Object.get, Object.own, hown])

theorem Object.own_set (v : Option Value) :
    (o.set name v).own n = if n = name then v else o.own n := by
  simp [Object.set, Object.own, Function.update_apply]

@[simp] theorem Object.items_set (v : Option Value) :
    (o.set name v).items n = if n = name then elements v else o.items n := by
  unfold Object.items
  rw [Object.own_set]
  split_ifs <;> rfl

@[simp] theorem Object.items_create : o.create.items n = o.items n := rfl

/-- The elements that can be read, when nothing is inherited that has any. -/
theorem Object.elements_get (h : elements (inherited name) = []) :
    elements (o.get name) = o.items name := by
  rcases o.get_cases name with hget | ⟨hown, hget⟩
  · rw [hget, Object.items]
  · rw [hget, h, Object.items, hown, elements]

theorem Object.get_create (h : inherited name = none) : o.create.get name = o.get name := by
  cases o with
  | none => exact h
  | some own => rfl

theorem Object.plan_create (h : inherited name = none) : o.create.plan name = o.plan name := by
  unfold Object.plan
  rw [Object.get_create h]

theorem inherited_newListener : inherited (js "newListener") = none := by decide +kernel

theorem Object.plan_call {l : List Item} (h : o.plan name = .call l) :
    l = elements (o.get name) := by
  unfold Object.plan at h
  split_ifs at h
  split at h
  · rename_i hget
    rw [hget]
    exact (Plan.call.inj h).symm
  · rename_i hget
    rw [hget]
    exact (Plan.call.inj h).symm
  · cases h

/-- `addListener` appends. -/
theorem Object.items_push (e : Entry) :
    (o.push name e).items n =
      if n = name then elements (o.get name) ++ [.fn e] else o.items n := by
  unfold Object.push
  generalize o.get name = v
  cases v with
  | none => exact items_set _
  | some v =>
    cases v with
    | null => exact items_set _
    | fn e' => exact items_set _
    | array l => exact items_set _
    | object => exact items_set _
    | number k =>
      by_cases hk : k = 0
      · simp [truthy, hk, elements]
      · simp [truthy, hk, elements, Value.item]

/-- An own value once the first element that matches is removed. -/
theorem Object.items_removeListener_own {v : Option Value} (field : ℕ → Option Fn) (listener : Fn)
    (hget : o.get n = v) (hown : o.items n = elements v) :
    (o.removeListener field n listener).items n =
      (o.items n).eraseP (Item.matchesFn field listener) := by
  unfold Object.removeListener
  rw [hown, hget]
  cases v with
  | none => exact hown
  | some v =>
    have hone : ∀ x, elements (some v) = [x] →
        (if x.matchesFn field listener then o.set n none else o).items n =
          (elements (some v)).eraseP (Item.matchesFn field listener) := by
      intro x hx
      rw [hx]
      split_ifs with hm
      · rw [items_set, if_pos rfl, List.eraseP_cons_of_pos hm]
        rfl
      · rw [List.eraseP_cons_of_neg hm, hown, hx]
        rfl
    cases v with
    | null => exact hown
    | fn e => exact hone (.fn e) rfl
    | object => exact hone .other rfl
    | number k =>
      by_cases hk : k = 0
      · subst hk
        exact hown
      · have hx : elements (some (.number k)) = [.other] := by simp [elements, hk]
        have hk' : truthy (some (.number k)) = true := by simp [truthy, hk]
        rw [if_neg (by rw [hk']; exact Bool.noConfusion)]
        exact hone .other hx
    | array list =>
      have hlist : o.items n = list := hown
      simp only [truthy, Bool.true_eq_false, if_false, elements, List.eraseP_eq_eraseIdx]
      cases list.findIdx? (Item.matchesFn field listener) with
      | none => exact hlist
      | some position =>
        dsimp only
        rw [items_set, if_pos rfl]
        split_ifs with hlen
        · rw [List.length_eq_zero_iff.mp hlen]
          rfl
        · rfl

theorem Object.items_removeListener_inherited (field : ℕ → Option Fn) (listener : Fn)
    (hown : o.own n = none) (hget : o.get n = inherited n) :
    (o.removeListener field n listener).items n = [] := by
  have hitems : o.items n = [] := by rw [Object.items, hown, elements]
  have hif : ∀ p : Prop, [Decidable p] → (if p then o.set n none else o).items n = [] := by
    intro p _
    split_ifs
    · rw [items_set, if_pos rfl]
      rfl
    · exact hitems
  unfold Object.removeListener
  rw [hget]
  unfold inherited
  split_ifs
  all_goals first | exact hitems | exact hif _

/-- Nothing else is written. -/
theorem Object.items_removeListener_ne (field : ℕ → Option Fn) (listener : Fn) (hn : n ≠ name) :
    (o.removeListener field name listener).items n = o.items n := by
  unfold Object.removeListener
  split_ifs
  · rfl
  · split
    · split
      · rfl
      · rw [items_set, if_neg hn]
    · split_ifs
      · rw [items_set, if_neg hn]
      · rfl
    · rfl

/-- `removeListener` removes the first one that matches. -/
theorem Object.items_removeListener (field : ℕ → Option Fn) (listener : Fn) :
    (o.removeListener field name listener).items n =
      if n = name then (o.items n).eraseP (Item.matchesFn field listener) else o.items n := by
  split_ifs with hn
  · subst hn
    rcases o.get_cases n with hget | ⟨hown, hget⟩
    · exact items_removeListener_own field listener hget rfl
    · rw [items_removeListener_inherited field listener hown hget, items, hown]
      rfl
  · exact items_removeListener_ne field listener hn

theorem Object.items_removeAllListeners :
    (o.removeAllListeners name).items n = if n = name ∧ name ≠ [] then [] else o.items n := by
  unfold Object.removeAllListeners
  by_cases hname : name = []
  · simp [hname]
  · cases htruthy : truthy (o.get name) with
    | true => simp [hname, elements]
    | false =>
      by_cases hn : n = name
      · subst hn
        rcases o.get_cases n with hget | ⟨hown, -⟩
        · rw [hget] at htruthy
          simp [hname, items, elements_of_not_truthy htruthy]
        · simp [hname, items, hown, elements]
      · simp [hn]

/-- `listeners` gives the list, which is an array from then on. -/
theorem Object.listeners_eq (o : Object) (name : JSString) :
    (o.listeners name).2 = elements (o.create.get name) ∧
      ((o.listeners name).1 = o.create ∧ o.create.get name = some (.array (o.listeners name).2) ∨
        (o.listeners name).1 = o.create.set name (some (.array (o.listeners name).2))) := by
  unfold Object.listeners
  dsimp only
  cases o.create.get name with
  | none => exact ⟨rfl, .inr rfl⟩
  | some v =>
    cases v with
    | array l => exact ⟨rfl, .inl ⟨rfl, rfl⟩⟩
    | null => exact ⟨rfl, .inr rfl⟩
    | fn e => exact ⟨rfl, .inr rfl⟩
    | object => exact ⟨rfl, .inr rfl⟩
    | number k =>
      refine ⟨?_, .inr rfl⟩
      by_cases hk : k = 0
      · simp [truthy, hk, elements]
      · simp [truthy, hk, elements, Value.item]

theorem inherited_ne_array (l : List Item) : inherited name ≠ some (.array l) := by
  unfold inherited
  split_ifs <;> simp

theorem Object.items_listeners :
    (o.listeners name).1.items n =
      if n = name then elements (o.create.get name) else o.items n := by
  obtain ⟨hlist, ⟨hsame, harray⟩ | hset⟩ := o.listeners_eq name
  · rw [hsame, items_create]
    split_ifs with hn
    · subst hn
      rcases o.create.get_cases n with hget | ⟨-, hget⟩
      · rw [hget]
        rfl
      · exact absurd (hget.symm.trans harray) (inherited_ne_array _)
    · rfl
  · rw [hset, items_set, items_create, hlist]
    rfl

theorem Object.items_setMaxListeners (m : ℕ) :
    (o.setMaxListeners m).items n =
      if n = js "maxListeners" then if m = 0 then [] else [.other] else o.items n :=
  items_set _

end

end NodeJS.Events
