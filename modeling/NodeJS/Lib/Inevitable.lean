import NodeJS.Lib.Reach

/-! What a machine comes to whatever is done. -/
namespace Lib
variable {σ α : Type*} (step : σ → α → Option σ) (ok : σ → α → Prop) (P : σ → Prop)

/-- Whatever is done by actions that meet `ok`, a state with `P` is reached, and until then there is
something to do. -/
inductive Inevitable : σ → Prop
  | now {s : σ} (h : P s) : Inevitable s
  | later {s : σ} (enabled : ∃ a s', ok s a ∧ step s a = some s')
      (h : ∀ a s', ok s a → step s a = some s' → Inevitable s') : Inevitable s

variable {step ok P}

/-- It is enough that each step lowers a measure. -/
theorem inevitable_of_rank {I : σ → Prop} (μ : σ → ℕ) {s : σ} (h : I s)
    (hI : ∀ s a s', I s → ok s a → step s a = some s' → I s')
    (henabled : ∀ s, I s → P s ∨ ∃ a s', ok s a ∧ step s a = some s')
    (hlower : ∀ s a s', I s → ok s a → step s a = some s' → μ s' < μ s) :
    Inevitable step ok P s := by
  induction hn : μ s using Nat.strongRecOn generalizing s with
  | _ n ih =>
    rcases henabled s h with hp | hstep
    · exact .now hp
    · refine .later hstep fun a s' ha hs => ?_
      have hlt := hlower s a s' h ha hs
      exact ih (μ s') (hn ▸ hlt) (hI s a s' h ha hs) rfl

theorem Inevitable.mono {Q : σ → Prop} {s : σ} (h : Inevitable step ok P s)
    (hPQ : ∀ s, P s → Q s) : Inevitable step ok Q s := by
  induction h with
  | now h => exact .now (hPQ _ h)
  | later enabled _ ih => exact .later enabled ih

end Lib
