import Mathlib.Data.List.Sort

/-! Texts in lexicographic order, and what they begin with. -/
namespace Lib

section
variable {α : Type*} [LT α] [Std.Asymm (· < · : α → α → Prop)] {p a b c : List α}
  {l : List (List α)}

theorem headD_le_of_sorted (h : l.Pairwise (· ≤ ·)) (hb : b ∈ l) : l.headD [] ≤ b := by
  cases l with
  | nil => cases hb
  | cons a l =>
    rcases List.mem_cons.mp hb with rfl | hb
    · exact List.le_refl _
    · exact List.rel_of_pairwise_cons h hb

theorem le_getLastD_of_sorted (h : l.Pairwise (· ≤ ·)) (hb : b ∈ l) : b ≤ l.getLastD [] := by
  rcases List.eq_nil_or_concat l with rfl | ⟨l, c, rfl⟩
  · cases hb
  · rw [List.concat_eq_append] at h hb ⊢
    rw [List.getLastD_concat]
    rcases List.mem_append.mp hb with hb | hb
    · exact (List.pairwise_append.mp h).2.2 b hb c (List.mem_singleton_self c)
    · rw [List.mem_singleton.mp hb]
      exact List.le_refl _

variable [Std.Trichotomous (· < · : α → α → Prop)]

/-- What two texts begin with, every text between them begins with. -/
theorem prefix_of_between (ha : p <+: a) (hc : p <+: c) (hab : a ≤ b) (hbc : b ≤ c) :
    p <+: b := by
  induction p generalizing a b c with
  | nil => exact List.nil_prefix
  | cons x p ih =>
    obtain ⟨s, rfl⟩ := ha
    obtain ⟨t, rfl⟩ := hc
    cases b with
    | nil => cases List.le_nil.mp hab
    | cons y b =>
      rw [List.cons_append, List.cons_le_cons_iff] at hab hbc
      rcases hab with hlt | ⟨rfl, hab⟩
      · rcases hbc with hgt | ⟨rfl, -⟩
        · exact absurd hgt (Std.Asymm.asymm _ _ hlt)
        · exact absurd hlt (Std.Irrefl.irrefl _)
      · rcases hbc with hgt | ⟨-, hbc⟩
        · exact absurd hgt (Std.Irrefl.irrefl _)
        · rw [List.cons_prefix_cons]
          exact ⟨rfl, ih (List.prefix_append p s) (List.prefix_append p t) hab hbc⟩

/-- The texts of a sorted list all begin with what the first and the last begin with. -/
theorem forall_prefix_iff_of_sorted (h : l.Pairwise (· ≤ ·)) (hl : l ≠ []) :
    (∀ b ∈ l, p <+: b) ↔ p <+: l.headD [] ∧ p <+: l.getLastD [] := by
  refine ⟨fun hall => ⟨hall _ ?_, hall _ ?_⟩, fun ⟨hhead, hlast⟩ b hb => ?_⟩
  · rw [List.headD_eq_head?_getD, List.head?_eq_some_head hl]
    exact List.head_mem hl
  · rw [List.getLastD_eq_getLast?, List.getLast?_eq_some_getLast hl]
    exact List.getLast_mem hl
  · exact prefix_of_between hhead hlast (headD_le_of_sorted h hb) (le_getLastD_of_sorted h hb)

end

end Lib
