import NodeJS.Lib.Reach

/-! A machine given by rules, some for what comes from outside and some for what it then does by
itself until it rests, and a machine given by a partial step function that takes both at once. -/
namespace Lib
open Relation
variable {σ τ α : Type*}

/-- An act from outside, and what the machine does by itself until it rests. -/
def Responds (act : τ → α → τ → Prop) (go : τ → τ → Prop) (rests : τ → Prop) (t : τ) (a : α)
    (t' : τ) : Prop :=
  ∃ m, act t a m ∧ ReflTransGen go m t' ∧ rests t'

inductive RunsTo (step : τ → α → τ → Prop) : τ → List α → τ → Prop
  | nil {t : τ} : RunsTo step t [] t
  | cons {t m t' : τ} {a : α} {as : List α} (h : step t a m) (hs : RunsTo step m as t') :
    RunsTo step t (a :: as) t'

/-- What a machine does by itself leads to one resting state only. -/
theorem rest_unique {go : τ → τ → Prop} {rests : τ → Prop} (hgo : Relator.RightUnique go)
    (hrests : ∀ t t', rests t → ¬ go t t') {m t t' : τ} (h : ReflTransGen go m t) (ht : rests t)
    (h' : ReflTransGen go m t') (ht' : rests t') : t = t' := by
  have hstay : ∀ {s s'}, rests s → ReflTransGen go s s' → s = s' := by
    intro s s' hs hpath
    rcases ReflTransGen.cases_head hpath with heq | ⟨u, hu, -⟩
    · exact heq
    · exact absurd hu (hrests s u hs)
  rcases ReflTransGen.total_of_right_unique hgo h h' with hpath | hpath
  · exact hstay ht hpath
  · exact (hstay ht' hpath).symm

theorem responds_unique {act : τ → α → τ → Prop} {go : τ → τ → Prop} {rests : τ → Prop}
    (hact : ∀ t a m m', act t a m → act t a m' → m = m') (hgo : Relator.RightUnique go)
    (hrests : ∀ t t', rests t → ¬ go t t') {t t₁ t₂ : τ} {a : α}
    (h₁ : Responds act go rests t a t₁) (h₂ : Responds act go rests t a t₂) : t₁ = t₂ := by
  obtain ⟨m₁, ha₁, hpath₁, hrest₁⟩ := h₁
  obtain ⟨m₂, ha₂, hpath₂, hrest₂⟩ := h₂
  obtain rfl := hact t a m₁ m₂ ha₁ ha₂
  exact rest_unique hgo hrests hpath₁ hrest₁ hpath₂ hrest₂

/-- The two machines run together if every step of the one is a step of the other, which has but
one for each action. -/
theorem run_runs {step : σ → α → Option σ} {rule : τ → α → τ → Prop} {R : σ → τ → Prop}
    {ok : α → Prop} (hunique : ∀ t a t₁ t₂, rule t a t₁ → rule t a t₂ → t₁ = t₂)
    (hstep : ∀ s t a s', R s t → ok a → step s a = some s' → ∃ t', rule t a t' ∧ R s' t')
    (henabled : ∀ s t a t', R s t → ok a → rule t a t' → (step s a).isSome = true)
    {s : σ} {t : τ} (h : R s t) {as : List α} (hok : ∀ a ∈ as, ok a) :
    (∀ s', run step s as = some s' → ∃ t', RunsTo rule t as t' ∧ R s' t') ∧
      ∀ t', RunsTo rule t as t' → ∃ s', run step s as = some s' ∧ R s' t' := by
  induction as generalizing s t with
  | nil =>
    refine ⟨fun s' hs => ⟨t, .nil, Option.some.inj hs ▸ h⟩, fun t' ht => ?_⟩
    cases ht
    exact ⟨s, rfl, h⟩
  | cons a as ih =>
    have ha := hok a List.mem_cons_self
    have has : ∀ b ∈ as, ok b := fun b hb => hok b (List.mem_cons_of_mem a hb)
    constructor
    · intro s' hs
      obtain ⟨s₁, h₁, h₂⟩ := Option.bind_eq_some_iff.mp hs
      obtain ⟨t₁, hrule, hR⟩ := hstep s t a s₁ h ha h₁
      obtain ⟨t', hruns, hR'⟩ := (ih hR has).1 s' h₂
      exact ⟨t', .cons hrule hruns, hR'⟩
    · intro t' ht
      cases ht with
      | cons hrule hruns =>
        obtain ⟨s₁, h₁⟩ := Option.isSome_iff_exists.mp (henabled s t a _ h ha hrule)
        obtain ⟨t₁, hrule₁, hR⟩ := hstep s t a s₁ h ha h₁
        obtain rfl := hunique t a _ _ hrule hrule₁
        obtain ⟨s', h₂, hR'⟩ := (ih hR has).2 t' hruns
        exact ⟨s', Option.bind_eq_some_iff.mpr ⟨s₁, h₁, h₂⟩, hR'⟩

end Lib
