import Mathlib.Data.List.Basic
import Mathlib.Logic.Function.Basic
import Mathlib.Tactic.Common
import NodeJS.Lib.Reach

/-! Lists of entries under keys, to which entries are added at the end and from which the first
of its kind is taken away; and the order of entries in one list. -/
namespace Lib.Registry
section
variable {κ α : Type*} [DecidableEq κ]

def on (r : κ → List α) (e : κ × α) : κ → List α :=
  Function.update r e.1 (r e.1 ++ [e.2])

def onAll (r : κ → List α) (l : List (κ × α)) : κ → List α := l.foldl on r

theorem onAll_apply (r : κ → List α) (l : List (κ × α)) (k : κ) :
    onAll r l k = r k ++ (l.filter fun e => e.1 = k).map Prod.snd := by
  induction l generalizing r with
  | nil => exact (List.append_nil _).symm
  | cons e l ih =>
    have hcons : onAll r (e :: l) = onAll (on r e) l := rfl
    rw [hcons, ih]
    unfold on
    by_cases hk : e.1 = k
    · rw [List.filter_cons_of_pos (by simpa using hk), ← hk, Function.update_self, List.map_cons,
        List.append_assoc]
      rfl
    · rw [List.filter_cons_of_neg (by simpa using hk), Function.update_of_ne (Ne.symm hk)]

variable [DecidableEq α]

def off (r : κ → List α) (e : κ × α) : κ → List α :=
  Function.update r e.1 ((r e.1).erase e.2)

def offAll (r : κ → List α) (l : List (κ × α)) : κ → List α := l.foldl off r

variable (r : κ → List α)

theorem count_on (e : κ × α) (k : κ) (a : α) :
    (on r e k).count a = (r k).count a + if e = (k, a) then 1 else 0 := by
  obtain ⟨k', a'⟩ := e
  unfold on
  by_cases hk : k = k'
  · subst hk
    simp [List.count_singleton]
  · simp [Function.update_of_ne hk, Ne.symm hk]

theorem count_off (e : κ × α) (k : κ) (a : α) :
    (off r e k).count a = (r k).count a - if e = (k, a) then 1 else 0 := by
  obtain ⟨k', a'⟩ := e
  unfold off
  by_cases hk : k = k'
  · subst hk
    simp [List.count_erase]
  · simp [Function.update_of_ne hk, Ne.symm hk]

theorem count_onAll (l : List (κ × α)) (k : κ) (a : α) :
    (onAll r l k).count a = (r k).count a + l.count (k, a) := by
  induction l generalizing r with
  | nil => rfl
  | cons e l ih =>
    have hcons : onAll r (e :: l) = onAll (on r e) l := rfl
    rw [hcons, ih, count_on, List.count_cons]
    simp only [beq_iff_eq]
    omega

theorem count_offAll (l : List (κ × α)) (k : κ) (a : α) :
    (offAll r l k).count a = (r k).count a - l.count (k, a) := by
  induction l generalizing r with
  | nil => rfl
  | cons e l ih =>
    have hcons : offAll r (e :: l) = offAll (off r e) l := rfl
    rw [hcons, ih, count_off, List.count_cons]
    simp only [beq_iff_eq]
    omega

end

/-! ### Order -/

section
variable {α : Type*}

/-- Before any `y` in the list comes an entry that `q` holds of. -/
def Before (q : α → Prop) (y : α) : List α → Prop
  | [] => True
  | a :: l => q a ∨ a ≠ y ∧ Before q y l

variable {q : α → Prop} {y a : α} {l : List α}

theorem Before.of_not_mem (h : y ∉ l) : Before q y l := by
  induction l with
  | nil => trivial
  | cons b l ih =>
    rw [List.mem_cons, not_or] at h
    exact .inr ⟨Ne.symm h.1, ih h.2⟩

theorem Before.tail (h : Before q y (a :: l)) (ha : ¬ q a) : Before q y l :=
  h.elim (fun h => absurd h ha) And.right

theorem Before.append (h : Before q y l) {l' : List α} (h' : Before q y l') :
    Before q y (l ++ l') := by
  induction l with
  | nil => exact h'
  | cons b l ih => exact h.imp id fun h => ⟨h.1, ih h.2⟩

theorem Before.erase [DecidableEq α] (h : Before q y l) (ha : ¬ q a) : Before q y (l.erase a) := by
  induction l with
  | nil => exact h
  | cons b l ih =>
    by_cases hb : b = a
    · rw [hb, List.erase_cons_head]
      rw [hb] at h
      exact h.tail ha
    · rw [List.erase_cons_tail (by simpa using hb)]
      exact h.imp id fun h => ⟨h.1, ih h.2⟩

variable {κ : Type*} [DecidableEq κ] [DecidableEq α] {r : κ → List α} {k : κ}

theorem before_off (h : Before q y (r k)) {e : κ × α} (he : ¬ q e.2) :
    Before q y (off r e k) := by
  unfold off
  by_cases hk : k = e.1
  · rw [hk, Function.update_self, ← hk]
    exact h.erase he
  · rw [Function.update_of_ne hk]
    exact h

theorem before_offAll (h : Before q y (r k)) {l : List (κ × α)} (hl : ∀ e ∈ l, ¬ q e.2) :
    Before q y (offAll r l k) := by
  induction l generalizing r with
  | nil => exact h
  | cons e l ih =>
    obtain ⟨he, hl⟩ := List.forall_mem_cons.mp hl
    exact ih (before_off h he) hl

end

end Lib.Registry
