import Mathlib.Data.Nat.Notation
import Mathlib.Logic.Relation

/-! Runs of a machine given by a partial step function. `Reach step ok` holds between two
states when some run leads from one to the other whose every action met `ok` in the state it
was taken in. -/
namespace Lib
variable {σ α : Type*}

/-- One step by an action that meets `ok`. -/
def Step (step : σ → α → Option σ) (ok : σ → α → Prop) (s s' : σ) : Prop :=
  ∃ a, ok s a ∧ step s a = some s'

def Reach (step : σ → α → Option σ) (ok : σ → α → Prop) : σ → σ → Prop :=
  Relation.ReflTransGen (Step step ok)

/-- The run of a list of actions, if all of them are enabled. -/
def run (step : σ → α → Option σ) : σ → List α → Option σ
  | s, [] => some s
  | s, a :: as => (step s a).bind fun s => run step s as

variable {step : σ → α → Option σ} {ok : σ → α → Prop}

theorem Reach.invariant {P : σ → Prop} {s₀ s : σ} (h : Reach step ok s₀ s) (h₀ : P s₀)
    (hs : ∀ s a s', P s → ok s a → step s a = some s' → P s') : P s := by
  induction h with
  | refl => exact h₀
  | tail _ hst ih =>
    obtain ⟨a, ha, he⟩ := hst
    exact hs _ a _ ih ha he

theorem Reach.mono {ok' : σ → α → Prop} {s₀ s : σ} (h : Reach step ok s₀ s)
    (hok : ∀ s a, ok s a → ok' s a) : Reach step ok' s₀ s :=
  Relation.ReflTransGen.mono (fun _ _ ⟨a, ha, hs⟩ => ⟨a, hok _ a ha, hs⟩) _ _ h

theorem reach_of_run {s₀ s : σ} {as : List α} (h : run step s₀ as = some s)
    (hok : ∀ s a, ok s a) : Reach step ok s₀ s := by
  induction as generalizing s₀ with
  | nil =>
    obtain rfl : s₀ = s := Option.some.inj h
    exact Relation.ReflTransGen.refl
  | cons a as ih =>
    obtain ⟨s₁, h₁, h₂⟩ := Option.bind_eq_some_iff.mp h
    exact Relation.ReflTransGen.head ⟨a, hok _ _, h₁⟩ (ih h₂)

/-- `P` holds of every step of a run of `as`. -/
def Along (step : σ → α → Option σ) (P : σ → α → σ → Prop) : σ → List α → Prop
  | _, [] => True
  | s, a :: as => ∀ s', step s a = some s' → P s a s' ∧ Along step P s' as

theorem along_cons {P : σ → α → σ → Prop} {s s' : σ} {a : α} {as : List α}
    (hs : step s a = some s') (ha : P s a s') (h : Along step P s' as) :
    Along step P s (a :: as) := by
  intro s'' hs''
  obtain rfl : s' = s'' := Option.some.inj (hs.symm.trans hs'')
  exact ⟨ha, h⟩

/-- A run each action of which meets `ok`. -/
theorem reach_of_along {s₀ s : σ} {as : List α} (h : run step s₀ as = some s)
    (hok : Along step (fun s a _ => ok s a) s₀ as) : Reach step ok s₀ s := by
  induction as generalizing s₀ with
  | nil =>
    obtain rfl : s₀ = s := Option.some.inj h
    exact Relation.ReflTransGen.refl
  | cons a as ih =>
    obtain ⟨s₁, h₁, h₂⟩ := Option.bind_eq_some_iff.mp h
    obtain ⟨ha, has⟩ := hok s₁ h₁
    exact Relation.ReflTransGen.head ⟨a, ha, h₁⟩ (ih h₂ has)

theorem Along.last {P : σ → α → σ → Prop} {s₀ s s' : σ} {as : List α} {a : α}
    (h : Along step P s₀ (as ++ [a])) (hs : run step s₀ as = some s) (ha : step s a = some s') :
    P s a s' := by
  induction as generalizing s₀ with
  | nil =>
    obtain rfl : s₀ = s := Option.some.inj hs
    exact (h s' ha).1
  | cons b as ih =>
    obtain ⟨s₁, h₁, h₂⟩ := Option.bind_eq_some_iff.mp hs
    exact ih (h s₁ h₁).2 h₂

theorem Along.imp {I : σ → Prop} {P Q : σ → α → σ → Prop} {s : σ} {as : List α}
    (hP : Along step P s as) (h : I s) (hI : ∀ s a s', I s → step s a = some s' → I s')
    (himp : ∀ s a s', I s → P s a s' → step s a = some s' → Q s a s') : Along step Q s as := by
  induction as generalizing s with
  | nil => trivial
  | cons a as ih =>
    intro s' hs
    obtain ⟨ha, has⟩ := hP s' hs
    exact ⟨himp s a s' h ha hs, ih has (hI s a s' h hs)⟩

/-- Two properties that agree on the steps from states with an invariant, which is kept as long as
the second one holds. -/
theorem along_iff_while {J : σ → Prop} {P Q : σ → α → σ → Prop} {s : σ} (h : J s)
    (hiff : ∀ s a s', J s → step s a = some s' → (P s a s' ↔ Q s a s'))
    (hkeep : ∀ s a s', J s → Q s a s' → step s a = some s' → J s') (as : List α) :
    Along step P s as ↔ Along step Q s as := by
  induction as generalizing s with
  | nil => exact Iff.rfl
  | cons a as ih =>
    unfold Along
    refine forall_congr' fun s' => forall_congr' fun ha => ?_
    rw [hiff s a s' h ha]
    exact and_congr_right fun hq => ih (hkeep s a s' h hq ha)

/-- Two properties that agree on the steps from states with the invariant. -/
theorem along_congr {I : σ → Prop} {P Q : σ → α → σ → Prop} {s : σ} (h : I s)
    (hstep : ∀ s a s', I s → step s a = some s' → I s')
    (hiff : ∀ s a s', I s → step s a = some s' → (P s a s' ↔ Q s a s')) (as : List α) :
    Along step P s as ↔ Along step Q s as :=
  along_iff_while h hiff (fun s a s' hI _ hs => hstep s a s' hI hs) as

/-- A property of the states that every step keeps under one condition and no other. -/
theorem along_iff {I P : σ → Prop} {Q : σ → α → Prop} {s : σ} (h : I s) (hp : P s)
    (hstep : ∀ s a s', I s → step s a = some s' → I s')
    (hiff : ∀ s a s', I s → P s → step s a = some s' → (P s' ↔ Q s a)) (as : List α) :
    Along step (fun _ _ s' => P s') s as ↔ Along step (fun s a _ => Q s a) s as := by
  refine along_iff_while (J := fun s => I s ∧ P s) ⟨h, hp⟩
    (fun s a s' hs ha => hiff s a s' hs.1 hs.2 ha) (fun s a s' hs hq ha => ?_) as
  exact ⟨hstep s a s' hs.1 ha, (hiff s a s' hs.1 hs.2 ha).mpr hq⟩

/-- What a step spoils stays spoilt: a run to a state where nothing is spoilt met `Q` at every
step. -/
theorem along_or {I B : σ → Prop} {P Q : σ → α → σ → Prop} {s s' : σ} {as : List α} (h : I s)
    (hI : ∀ s a s', I s → P s a s' → step s a = some s' → I s')
    (hbad : ∀ s a s', I s → B s → P s a s' → step s a = some s' → B s')
    (hstep : ∀ s a s', I s → P s a s' → step s a = some s' → Q s a s' ∨ B s')
    (hP : Along step P s as) (hrun : run step s as = some s') : Along step Q s as ∨ B s' := by
  have hkept : ∀ as s, I s → B s → Along step P s as → run step s as = some s' → B s' := by
    intro as
    induction as with
    | nil =>
      intro s _ hs _ hrun
      obtain rfl : s = s' := Option.some.inj hrun
      exact hs
    | cons a as ih =>
      intro s hs hb hP hrun
      obtain ⟨s₁, h₁, h₂⟩ := Option.bind_eq_some_iff.mp hrun
      obtain ⟨ha, has⟩ := hP s₁ h₁
      exact ih s₁ (hI s a s₁ hs ha h₁) (hbad s a s₁ hs hb ha h₁) has h₂
  induction as generalizing s with
  | nil => exact Or.inl trivial
  | cons a as ih =>
    obtain ⟨s₁, h₁, h₂⟩ := Option.bind_eq_some_iff.mp hrun
    obtain ⟨ha, has⟩ := hP s₁ h₁
    have hs₁ := hI s a s₁ h ha h₁
    rcases hstep s a s₁ h ha h₁ with hq | hb
    · exact (ih hs₁ has h₂).imp_left (along_cons h₁ hq)
    · exact Or.inr (hkept as s₁ hs₁ hb has h₂)

/-- An invariant of the states of a run that met `P` at every step. -/
theorem Along.invariant {I : σ → Prop} {P : σ → α → σ → Prop} {s s' : σ} {as : List α}
    (hP : Along step P s as) (h : I s)
    (hI : ∀ s a s', I s → P s a s' → step s a = some s' → I s')
    (hrun : run step s as = some s') : I s' := by
  induction as generalizing s with
  | nil =>
    obtain rfl : s = s' := Option.some.inj hrun
    exact h
  | cons a as ih =>
    obtain ⟨s₁, h₁, h₂⟩ := Option.bind_eq_some_iff.mp hrun
    obtain ⟨ha, has⟩ := hP s₁ h₁
    exact ih has (hI s a s₁ h ha h₁) h₂

theorem along_trivial (s : σ) (as : List α) : Along step (fun _ _ _ => True) s as := by
  induction as generalizing s with
  | nil => trivial
  | cons a as ih => exact fun s' _ => ⟨trivial, ih s'⟩

/-- A run takes no more steps that lower a measure than the measure and the steps that raise it
allow. -/
theorem countP_le_of_run {I : σ → Prop} {μ : σ → ℕ} {p : α → Bool} {c : ℕ} {s s' : σ} {as : List α}
    (h : I s) (hI : ∀ s a s', I s → step s a = some s' → I s')
    (hlower : ∀ s a s', I s → p a = true → step s a = some s' → μ s' < μ s)
    (hraise : ∀ s a s', I s → p a = false → step s a = some s' → μ s' ≤ μ s + c)
    (hrun : run step s as = some s') : as.countP p ≤ μ s + c * as.countP (!p ·) := by
  induction as generalizing s with
  | nil => exact Nat.zero_le _
  | cons a as ih =>
    obtain ⟨s₁, h₁, h₂⟩ := Option.bind_eq_some_iff.mp hrun
    have hrest := ih (hI s a s₁ h h₁) h₂
    rw [List.countP_cons, List.countP_cons]
    cases hp : p a with
    | true =>
      have hlt := hlower s a s₁ h hp h₁
      simp only [if_true, Bool.not_true, Bool.false_eq_true, if_false, Nat.add_zero]
      omega
    | false =>
      have hle := hraise s a s₁ h hp h₁
      simp only [if_true, Bool.not_false, Bool.false_eq_true, if_false, Nat.mul_add]
      omega

end Lib
