import Mathlib.Data.List.Count
import Mathlib.Tactic.Common

/-! Removing the first element that matches, and the elements that match in front of a given
one. -/
namespace Lib
variable {α : Type*} [DecidableEq α] {m : α → Bool} {a b : α} {l l' : List α}

/-- How many elements that match stand before `a`. -/
def before (m : α → Bool) (a : α) (l : List α) : ℕ := (l.takeWhile (· ≠ a)).countP m

@[simp] theorem before_cons_self : before m a (a :: l) = 0 := by
  simp [before]

theorem before_cons_of_ne (h : b ≠ a) :
    before m a (b :: l) = before m a l + if m b then 1 else 0 := by
  simp [before, h, List.countP_cons]

theorem before_append (h : a ∈ l) : before m a (l ++ l') = before m a l := by
  induction l with
  | nil => cases h
  | cons b l ih =>
    rw [List.cons_append]
    by_cases hb : b = a
    · subst hb
      rw [before_cons_self, before_cons_self]
    · rw [before_cons_of_ne hb, before_cons_of_ne hb, ih]
      exact (List.mem_cons.mp h).resolve_left (Ne.symm hb)

theorem ne_of_count_le (h : a ∈ l) (hone : (b :: l).count a ≤ 1) : b ≠ a := by
  rintro rfl
  have hpos := List.count_pos_iff.mpr h
  rw [List.count_cons_self] at hone
  omega

theorem count_le_of_cons {n : ℕ} (h : (b :: l).count a ≤ n) : l.count a ≤ n :=
  Nat.le_trans (List.count_le_count_cons) h

/-- Fewer elements, fewer of them in front. -/
theorem before_sublist (h : l'.Sublist l) (hmem : a ∈ l') (hone : l.count a ≤ 1) :
    before m a l' ≤ before m a l := by
  induction h with
  | slnil => cases hmem
  | cons b h ih =>
    rw [before_cons_of_ne (ne_of_count_le (h.mem hmem) hone)]
    exact Nat.le_trans (ih hmem (count_le_of_cons hone)) (Nat.le_add_right _ _)
  | cons_cons b h ih =>
    by_cases hb : b = a
    · subst hb
      rw [before_cons_self]
      exact Nat.zero_le _
    · rw [before_cons_of_ne hb, before_cons_of_ne hb]
      have hmem' := (List.mem_cons.mp hmem).resolve_left (Ne.symm hb)
      exact Nat.add_le_add_right (ih hmem' (count_le_of_cons hone)) _

/-- If `a` is still there once the first match is gone, that stood before it. -/
theorem before_eraseP (ha : m a = true) (hmem : a ∈ l.eraseP m) (hone : l.count a ≤ 1) :
    before m a (l.eraseP m) + 1 = before m a l := by
  induction l with
  | nil => cases hmem
  | cons b l ih =>
    by_cases hb : m b = true
    · rw [List.eraseP_cons_of_pos hb] at hmem ⊢
      rw [before_cons_of_ne (ne_of_count_le hmem hone), if_pos hb]
    · rw [List.eraseP_cons_of_neg hb] at hmem ⊢
      have hne : b ≠ a := by
        rintro rfl
        exact hb ha
      rw [before_cons_of_ne hne, before_cons_of_ne hne, if_neg hb, Nat.add_zero, Nat.add_zero]
      exact ih ((List.mem_cons.mp hmem).resolve_left (Ne.symm hne)) (count_le_of_cons hone)

end Lib
