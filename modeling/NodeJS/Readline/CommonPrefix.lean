import NodeJS.Lib.Lex
import NodeJS.Readline.Interface

/-! What `commonPrefix` returns. -/
namespace NodeJS.Readline.Interface
open Lib

/-- What the loop returns is what both texts begin with. -/
theorem prefix_agree_iff {p min max : JSString} : p <+: agree min max ↔ p <+: min ∧ p <+: max := by
  induction min generalizing p max with
  | nil =>
    have hagree : agree [] max = [] := by simp [agree]
    rw [hagree]
    refine ⟨fun h => ?_, fun h => h.1⟩
    rw [List.prefix_nil.mp h]
    exact ⟨List.nil_prefix, List.nil_prefix⟩
  | cons c min ih =>
    cases p with
    | nil => exact iff_of_true List.nil_prefix ⟨List.nil_prefix, List.nil_prefix⟩
    | cons x p =>
      cases max with
      | nil => exact iff_of_false (by simp [agree]) (by simp)
      | cons d max =>
        rw [agree]
        split_ifs with hc
        · rw [hc, List.cons_prefix_cons, List.cons_prefix_cons, List.cons_prefix_cons, ih]
          exact and_and_left
        · refine iff_of_false (by simp) fun h => hc ?_
          rw [List.cons_prefix_cons, List.cons_prefix_cons] at h
          exact h.1.1.symm.trans h.2.1

theorem prefix_commonPrefix_iff {strings : List JSString} (h : strings ≠ []) {p : JSString} :
    p <+: commonPrefix strings ↔ ∀ s ∈ strings, p <+: s := by
  have hsorted : (strings.insertionSort (· ≤ ·)).Pairwise (· ≤ ·) := List.pairwise_insertionSort _ _
  have hne : strings.insertionSort (· ≤ ·) ≠ [] := by
    intro hnil
    refine h (List.length_eq_zero_iff.mp ?_)
    rw [← List.length_insertionSort (· ≤ ·) strings, hnil]
    rfl
  have hall := forall_prefix_iff_of_sorted (p := p) hsorted hne
  simp only [List.mem_insertionSort] at hall
  exact prefix_agree_iff.trans hall.symm

/-- `commonPrefix` returns the longest string that all strings begin with. -/
theorem commonPrefix_longest {strings : List JSString} (h : strings ≠ []) :
    (∀ s ∈ strings, commonPrefix strings <+: s) ∧
      ∀ p, (∀ s ∈ strings, p <+: s) → p.length ≤ (commonPrefix strings).length :=
  ⟨(prefix_commonPrefix_iff h).mp (List.prefix_refl _),
    fun _ hp => ((prefix_commonPrefix_iff h).mpr hp).length_le⟩

theorem commonPrefix_longest_require :
    (∀ s ∈ [js "require", js "replace"], js "re" <+: s) ∧
      ∀ p, (∀ s ∈ [js "require", js "replace"], p <+: s) → p.length ≤ 2 := by
  have hre : commonPrefix [js "require", js "replace"] = js "re" := by decide +kernel
  have h := commonPrefix_longest (List.cons_ne_nil (js "require") [js "replace"])
  rwa [hre] at h

end NodeJS.Readline.Interface
