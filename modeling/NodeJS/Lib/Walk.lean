import Mathlib.Data.Fintype.Card

/-! Walks that keep out of a list of places, and how many places are left to go to. -/
namespace Lib
variable {α : Type} {R : α → α → Prop} {out : List α} {a b c : α} {n : ℕ}

/-- From `a` to `b` in `n` steps, and never to a place of `out`. -/
inductive Walk (R : α → α → Prop) (out : List α) : α → α → ℕ → Prop
  | here {a : α} (ha : a ∉ out) : Walk R out a a 0
  | step {a b c : α} {n : ℕ} (ha : a ∉ out) (hab : R a b) (h : Walk R out b c n) :
    Walk R out a c (n + 1)

theorem Walk.not_mem (h : Walk R out a b n) : a ∉ out := by
  cases h with
  | here ha => exact ha
  | step ha => exact ha

theorem Walk.of_append {r : α} (h : Walk R (out ++ [r]) a b n) : Walk R out a b n := by
  induction h with
  | here ha => exact .here fun hmem => ha (List.mem_append_left _ hmem)
  | step ha hab _ ih => exact .step (fun hmem => ha (List.mem_append_left _ hmem)) hab ih

/-- A walk keeps out of `r`, or there is a shorter way from `r` on. -/
theorem Walk.append_or (h : Walk R out a c n) (r : α) :
    Walk R (out ++ [r]) a c n ∨ r = c ∨
      ∃ b m, R r b ∧ Walk R (out ++ [r]) b c m ∧ m + 1 ≤ n := by
  have hout : ∀ {a : α}, a ∉ out → a ≠ r → a ∉ out ++ [r] := by
    intro a ha hne hmem
    rcases List.mem_append.mp hmem with hmem | hmem
    · exact ha hmem
    · exact hne (List.mem_singleton.mp hmem)
  induction h with
  | @here a ha =>
    by_cases hr : a = r
    · exact .inr (.inl hr.symm)
    · exact .inl (.here (hout ha hr))
  | @step a b c n ha hab _ ih =>
    rcases ih with hrest | hend | ⟨b', m, hb, hwalk, hm⟩
    · by_cases hr : a = r
      · subst hr
        exact .inr (.inr ⟨b, n, hab, hrest, Nat.le_refl _⟩)
      · exact .inl (.step (hout ha hr) hab hrest)
    · exact .inr (.inl hend)
    · exact .inr (.inr ⟨b', m, hb, hwalk, Nat.le_succ_of_le hm⟩)

/-- A walk need not come back to where it begins. -/
theorem Walk.leave (h : Walk R out a c n) :
    a = c ∨ ∃ b m, R a b ∧ Walk R (out ++ [a]) b c m ∧ m + 1 ≤ n := by
  rcases h.append_or a with hwalk | hrest
  · exact absurd (List.mem_append_right _ (List.mem_singleton_self a)) hwalk.not_mem
  · exact hrest

/-- How many places are not in the list. -/
def remaining [Fintype α] [DecidableEq α] (out : List α) : ℕ :=
  (Finset.univ.filter (· ∉ out)).card

theorem remaining_append_lt [Fintype α] [DecidableEq α] (ha : a ∉ out) :
    remaining (out ++ [a]) < remaining out := by
  refine Finset.card_lt_card ((Finset.ssubset_iff_of_subset fun b hb => ?_).mpr ⟨a, ?_, ?_⟩)
  · rw [Finset.mem_filter] at hb ⊢
    exact ⟨hb.1, fun hmem => hb.2 (List.mem_append_left _ hmem)⟩
  · simpa using ha
  · simp

end Lib
