import Mathlib.Logic.Function.Iterate
import Mathlib.Tactic.Common

/-! Loops. A round either goes on with a new state or ends with a result, and a loop need not
end. -/
namespace Lib
variable {σ ρ : Type*} {round : σ → σ ⊕ ρ}

/-- The loop that has come this far ends with the result. -/
inductive Ends (round : σ → σ ⊕ ρ) : σ ⊕ ρ → ρ → Prop
  | done (r : ρ) : Ends round (.inr r) r
  | more {s : σ} {r : ρ} (h : Ends round (round s) r) : Ends round (.inl s) r

theorem Ends.unique {x : σ ⊕ ρ} {r r' : ρ} (h : Ends round x r) (h' : Ends round x r') : r = r' := by
  induction h with
  | done r =>
    cases h' with
    | done => rfl
  | more _ ih =>
    cases h' with
    | more h' => exact ih h'

/-- What every round keeps and the last one brings about. -/
theorem Ends.invariant {P : σ → Prop} {Q : ρ → Prop} {x : σ ⊕ ρ} {r : ρ} (h : Ends round x r)
    (hx : Sum.elim P Q x) (hround : ∀ s, P s → Sum.elim P Q (round s)) : Q r := by
  induction h with
  | done r => exact hx
  | more _ ih => exact ih (hround _ hx)

def loop (round : σ → σ ⊕ ρ) : ℕ → σ ⊕ ρ → Option ρ
  | _, .inr r => some r
  | 0, .inl _ => none
  | n + 1, .inl s => loop round n (round s)

theorem ends_of_loop {n : ℕ} {x : σ ⊕ ρ} {r : ρ} (h : loop round n x = some r) :
    Ends round x r := by
  induction n generalizing x with
  | zero =>
    cases x with
    | inl s => cases h
    | inr r' =>
      obtain rfl : r' = r := Option.some.inj h
      exact .done r'
  | succ n ih =>
    cases x with
    | inl s => exact .more (ih h)
    | inr r' =>
      obtain rfl : r' = r := Option.some.inj h
      exact .done r'

theorem loop_of_ends {x : σ ⊕ ρ} {r : ρ} (h : Ends round x r) : ∃ n, loop round n x = some r := by
  induction h with
  | done r => exact ⟨0, rfl⟩
  | more _ ih =>
    obtain ⟨n, hn⟩ := ih
    exact ⟨n + 1, hn⟩

/-- A loop never ends that comes to a state with a property that each round keeps. -/
theorem loop_never {P : σ → Prop} (hround : ∀ s, P s → ∃ s', round s = .inl s' ∧ P s') {n : ℕ}
    {x : σ ⊕ ρ} {s : σ} (hs : (Sum.elim round .inr)^[n] x = .inl s) (h : P s) (m : ℕ) :
    loop round m x = none := by
  induction n generalizing x m with
  | zero =>
    obtain rfl : x = .inl s := hs
    induction m generalizing s with
    | zero => rfl
    | succ m ih =>
      obtain ⟨s', hs', h'⟩ := hround s h
      unfold loop
      rw [hs']
      exact ih h'
  | succ n ih =>
    cases x with
    | inr r =>
      have hstay : ∀ k, (Sum.elim round .inr)^[k] (.inr r) = (.inr r : σ ⊕ ρ) := fun k =>
        Function.iterate_fixed rfl k
      exact absurd ((hstay (n + 1)).symm.trans hs) nofun
    | inl s₀ =>
      cases m with
      | zero => rfl
      | succ m => exact ih hs m

end Lib
