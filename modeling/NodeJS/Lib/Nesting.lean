import Mathlib.Data.List.Basic
import Mathlib.Data.Nat.Find

/-! A stack that changes by one element at a time, for ever. -/
namespace Lib
variable {α : Type*} {l l' rest : List α} {a : α} {stack : ℕ → List α}

/-- Nothing changes, or one element is put on the stack or taken from it. -/
def Moves (l l' : List α) : Prop := l' = l ∨ (∃ a, l' = a :: l) ∨ ∃ a, l = a :: l'

/-- What is not uncovered stays. -/
theorem Moves.suffix (h : Moves l l') (hrest : rest <:+ l) (hlow : rest.length ≤ l'.length) :
    rest <:+ l' := by
  rcases h with rfl | ⟨a, rfl⟩ | ⟨a, rfl⟩
  · exact hrest
  · exact hrest.trans (List.suffix_cons a l)
  · rcases List.suffix_cons_iff.mp hrest with rfl | hrest
    · rw [List.length_cons] at hlow
      omega
    · exact hrest

/-- An element that is covered is uncovered before it is taken. -/
theorem Moves.uncovers (h : Moves l l') (hrest : a :: rest <:+ l) (hne : l' ≠ rest) :
    a :: rest <:+ l' := by
  rcases h with rfl | ⟨b, rfl⟩ | ⟨b, rfl⟩
  · exact hrest
  · exact hrest.trans (List.suffix_cons b l)
  · rcases List.suffix_cons_iff.mp hrest with heq | hrest
    · exact absurd (List.cons.inj heq).2.symm hne
    · exact hrest

/-- On a stack that is never empty and does not grow without a bound, some element is on top again
and again. -/
theorem often_on_top (hmoves : ∀ n, Moves (stack n) (stack (n + 1))) {bound : ℕ}
    (hbound : ∀ n, (stack n).length ≤ bound) (hne : ∀ n, stack n ≠ []) :
    ∃ a, ∀ n, ∃ m, n ≤ m ∧ (stack m).head? = some a := by
  classical
  -- the least length that is not left behind
  have hexists : ∃ k, ∀ n, ∃ m, n ≤ m ∧ (stack m).length ≤ k :=
    ⟨bound, fun n => ⟨n, le_rfl, hbound n⟩⟩
  have hleast := Nat.find_spec hexists
  have habove : ∃ N, ∀ m, N ≤ m → Nat.find hexists ≤ (stack m).length := by
    by_cases hzero : Nat.find hexists = 0
    · exact ⟨0, fun m _ => by omega⟩
    · have hnot := Nat.find_min hexists (Nat.sub_one_lt hzero)
      push Not at hnot
      obtain ⟨N, hN⟩ := hnot
      exact ⟨N, fun m hm => by have := hN m hm; omega⟩
  obtain ⟨N, hN⟩ := habove
  obtain ⟨M, hM, hlow⟩ := hleast N
  have hsuffix : ∀ d, stack M <:+ stack (M + d) := by
    intro d
    induction d with
    | zero => exact List.suffix_refl _
    | succ d ih => exact (hmoves (M + d)).suffix ih (Nat.le_trans hlow (hN _ (by omega)))
  obtain ⟨a, below, hstack⟩ := List.exists_cons_of_ne_nil (hne M)
  refine ⟨a, fun n => ?_⟩
  obtain ⟨m, hm, hlow'⟩ := hleast (max n M)
  have hover : stack M <:+ stack m := by
    have h := hsuffix (m - M)
    rwa [Nat.add_sub_cancel' (by omega)] at h
  have hsame : stack M = stack m :=
    hover.eq_of_length_le (Nat.le_trans hlow' (hN M hM))
  exact ⟨m, by omega, by rw [← hsame, hstack]; rfl⟩

end Lib
