import Mathlib.Data.Nat.Notation
import Mathlib.Tactic.Common

/-! Calls that change a state and return or throw, unless the calls in them are nested too
deeply. -/
namespace Lib

/-- What a call returns or throws, and the state after it. It is `none` where it is cut short. -/
def Call (σ ε α : Type) := σ → Option (Except ε α × σ)

namespace Call
variable {σ ε α β : Type}

instance : Monad (Call σ ε) where
  pure a s := some (.ok a, s)
  bind c f s :=
    match c s with
    | none => none
    | some (.error e, s) => some (.error e, s)
    | some (.ok a, s) => f a s

def cut : Call σ ε α := fun _ => none

def throw (e : ε) : Call σ ε α := fun s => some (.error e, s)

def get : Call σ ε σ := fun s => some (.ok s, s)

def modify (f : σ → σ) : Call σ ε Unit := fun s => some (.ok (), f s)

/-- One call after the other, for every element of a list. -/
def each (f : α → Call σ ε β) : List α → Call σ ε (List β)
  | [] => pure []
  | a :: l => do
    let b ← f a
    let bs ← each f l
    pure (b :: bs)

theorem bind_apply (c : Call σ ε α) (f : α → Call σ ε β) (s : σ) :
    (c >>= f) s = match c s with
      | none => none
      | some (.error e, s) => some (.error e, s)
      | some (.ok a, s) => f a s := rfl

/-! ### What a call comes to -/

/-- The call is not cut short. What it returns has `Q`, and `E` holds if it throws. -/
def Total (c : Call σ ε α) (s : σ) (Q : α → σ → Prop) (E : Prop) : Prop :=
  ∃ r s', c s = some (r, s') ∧ match r with
    | .ok a => Q a s'
    | .error _ => E

section
variable {c : Call σ ε α} {f : α → Call σ ε β} {s : σ} {Q Q' : α → σ → Prop} {E E' : Prop}

theorem total_pure {a : α} (h : Q a s) : Total (pure a : Call σ ε α) s Q E := ⟨.ok a, s, rfl, h⟩

theorem total_throw {e : ε} (h : E) : Total (throw e : Call σ ε α) s Q E := ⟨.error e, s, rfl, h⟩

theorem total_get {Q : σ → σ → Prop} (h : Q s s) : Total (get : Call σ ε σ) s Q E :=
  ⟨.ok s, s, rfl, h⟩

theorem total_modify {f : σ → σ} {Q : Unit → σ → Prop} (h : Q () (f s)) :
    Total (modify f : Call σ ε Unit) s Q E := ⟨.ok (), f s, rfl, h⟩

theorem Total.bind {R : β → σ → Prop} (h : Total c s Q E)
    (hf : ∀ a s', Q a s' → Total (f a) s' R E) : Total (c >>= f) s R E := by
  obtain ⟨r, s', hc, hr⟩ := h
  have hbind := bind_apply c f s
  rw [hc] at hbind
  cases r with
  | ok a =>
    obtain ⟨r, s'', hfa, hr⟩ := hf a s' hr
    exact ⟨r, s'', hbind.trans hfa, hr⟩
  | error e => exact ⟨.error e, s', hbind, hr⟩

theorem Total.mono (h : Total c s Q E) (hQ : ∀ a s', Q a s' → Q' a s') (hE : E → E') :
    Total c s Q' E' := by
  obtain ⟨r, s', hc, hr⟩ := h
  refine ⟨r, s', hc, ?_⟩
  cases r with
  | ok a => exact hQ a s' hr
  | error e => exact hE hr

/-- A call that throws on no account returns. -/
theorem Total.returns (h : Total c s Q False) : ∃ a s', c s = some (.ok a, s') ∧ Q a s' := by
  obtain ⟨r, s', hc, hr⟩ := h
  cases r with
  | ok a => exact ⟨a, s', hc, hr⟩
  | error e => exact hr.elim

theorem Total.not_ok (h : Total c s (fun _ _ => False) E) (a : α) (s' : σ) :
    c s ≠ some (.ok a, s') := by
  obtain ⟨r, s'', hc, hr⟩ := h
  rw [hc]
  rintro heq
  cases heq
  exact hr

end

section
variable {f : α → Call σ ε β} {s : σ} {I : σ → Prop} {E : Prop}

theorem total_each {l : List α}
    (h : ∀ a ∈ l, ∀ s, I s → Total (f a) s (fun _ s' => I s') E) (hs : I s) :
    Total (each f l) s (fun _ s' => I s') E := by
  induction l generalizing s with
  | nil => exact total_pure hs
  | cons a l ih =>
    rw [List.forall_mem_cons] at h
    refine (h.1 s hs).bind fun _ s' hs' => ?_
    exact (ih h.2 hs').bind fun _ s'' hs'' => total_pure hs''

/-- One of the calls does not return. -/
theorem total_each_of_mem {l : List α}
    (h : ∀ a ∈ l, ∀ s, I s → Total (f a) s (fun _ s' => I s') E) (hs : I s) {a : α} (ha : a ∈ l)
    (hthrow : ∀ s, I s → Total (f a) s (fun _ _ => False) E) :
    Total (each f l) s (fun _ _ => False) E := by
  induction l generalizing s with
  | nil => cases ha
  | cons a' l ih =>
    rw [List.forall_mem_cons] at h
    rcases List.mem_cons.mp ha with rfl | ha
    · exact (hthrow s hs).bind fun _ _ hfalse => hfalse.elim
    · refine (h.1 s hs).bind fun _ s' hs' => ?_
      exact (ih h.2 hs' ha).bind fun _ _ hfalse => hfalse.elim

end

/-! ### Calls that are cut short later -/

/-- `c'` comes to the same as `c`, unless `c` is cut short. -/
def Le (c c' : Call σ ε α) : Prop := ∀ s y, c s = some y → c' s = some y

theorem Le.refl (c : Call σ ε α) : Le c c := fun _ _ h => h

theorem Le.bind {c c' : Call σ ε α} {f f' : α → Call σ ε β} (hc : Le c c')
    (hf : ∀ a, Le (f a) (f' a)) : Le (c >>= f) (c' >>= f') := by
  intro s y h
  rw [bind_apply] at h ⊢
  cases hcs : c s with
  | none =>
    rw [hcs] at h
    cases h
  | some r =>
    rw [hcs] at h
    rw [hc s r hcs]
    obtain ⟨r, s'⟩ := r
    cases r with
    | ok a => exact hf a s' y h
    | error e => exact h

theorem Le.each {f f' : α → Call σ ε β} (h : ∀ a, Le (f a) (f' a)) (l : List α) :
    Le (Call.each f l) (Call.each f' l) := by
  induction l with
  | nil => exact Le.refl _
  | cons a l ih => exact (h a).bind fun _ => ih.bind fun _ => Le.refl _

end Call

end Lib
