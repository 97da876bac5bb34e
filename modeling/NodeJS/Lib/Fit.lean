import Mathlib.Data.List.Basic

/-! Writing a text into a bounded space, symbol by symbol. A code gives every symbol its
own word; the greedy writer takes leading symbols for as long as their words fit whole. -/
namespace Lib
variable {α β : Type*} (code : α → List β)

/-- Number of leading symbols that fit into `room`. -/
def fit : ℕ → List α → ℕ
  | _, [] => 0
  | room, a :: s => if (code a).length ≤ room then fit (room - (code a).length) s + 1 else 0

theorem fit_le_length (room : ℕ) (s : List α) : fit code room s ≤ s.length := by
  induction s generalizing room with
  | nil => simp [fit]
  | cons a s ih =>
    simp only [fit, List.length_cons]
    split_ifs
    · have := ih (room - (code a).length)
      omega
    · omega

theorem length_flatMap_take_fit_le (room : ℕ) (s : List α) :
    ((s.take (fit code room s)).flatMap code).length ≤ room := by
  induction s generalizing room with
  | nil => simp
  | cons a s ih =>
    simp only [fit]
    split_ifs with h
    · have := ih (room - (code a).length)
      simp only [List.take_succ_cons, List.flatMap_cons, List.length_append]
      omega
    · simp

/-- No longer beginning of the text fits. -/
theorem le_fit {room k : ℕ} {s : List α} (hk : k ≤ s.length)
    (h : ((s.take k).flatMap code).length ≤ room) : k ≤ fit code room s := by
  induction s generalizing room k with
  | nil => exact hk
  | cons a s ih =>
    cases k with
    | zero => exact Nat.zero_le _
    | succ k =>
      rw [List.take_succ_cons, List.flatMap_cons, List.length_append] at h
      rw [fit, if_pos (by omega)]
      exact Nat.succ_le_succ (ih (Nat.le_of_succ_le_succ hk) (by omega))

theorem length_flatMap_take_mono {j k : ℕ} (h : j ≤ k) (s : List α) :
    ((s.take j).flatMap code).length ≤ ((s.take k).flatMap code).length := by
  obtain ⟨d, rfl⟩ := Nat.exists_eq_add_of_le h
  rw [List.take_add, List.flatMap_append, List.length_append]
  exact Nat.le_add_right _ _

theorem le_fit_iff {room k : ℕ} {s : List α} (hk : k ≤ s.length) :
    k ≤ fit code room s ↔ ((s.take k).flatMap code).length ≤ room :=
  ⟨fun h => Nat.le_trans (length_flatMap_take_mono code h s)
      (length_flatMap_take_fit_le code room s),
    le_fit code hk⟩

/-- As many symbols are taken if the same beginnings of the text fit. -/
theorem fit_eq_fit_iff (room₁ room₂ : ℕ) (s : List α) :
    fit code room₁ s = fit code room₂ s ↔ ∀ k ≤ s.length,
      ((s.take k).flatMap code).length ≤ room₁ ↔ ((s.take k).flatMap code).length ≤ room₂ := by
  constructor
  · intro h k hk
    rw [← le_fit_iff code hk, ← le_fit_iff code hk, h]
  · intro h
    have hle₁ := fit_le_length code room₁ s
    have hle₂ := fit_le_length code room₂ s
    apply Nat.le_antisymm
    · rw [le_fit_iff code hle₁, ← h _ hle₁]
      exact length_flatMap_take_fit_le code room₁ s
    · rw [le_fit_iff code hle₂, h _ hle₂]
      exact length_flatMap_take_fit_le code room₂ s

/-- Room behind the end of the text is of no use. -/
theorem fit_min_length (room : ℕ) (s : List α) :
    fit code (min room (s.flatMap code).length) s = fit code room s := by
  rw [fit_eq_fit_iff]
  intro k hk
  have hmono := length_flatMap_take_mono code hk s
  rw [List.take_length] at hmono
  omega

theorem fit_eq_length_iff (room : ℕ) (s : List α) :
    fit code room s = s.length ↔ (s.flatMap code).length ≤ room := by
  constructor
  · intro h
    have hle := length_flatMap_take_fit_le code room s
    rwa [h, List.take_length] at hle
  · intro h
    exact Nat.le_antisymm (fit_le_length code room s)
      (le_fit code (Nat.le_refl _) (by rwa [List.take_length]))

theorem fit_pos {room : ℕ} {s : List α} (hs : s ≠ []) (h : ∀ a, (code a).length ≤ room) :
    0 < fit code room s := by
  cases s with
  | nil => exact absurd rfl hs
  | cons a s => simp [fit, h a]

/-- With words of one length the writer takes `room / w` symbols. -/
theorem fit_of_length_eq {w : ℕ} (hw : 0 < w) (h : ∀ a, (code a).length = w) (room : ℕ)
    (s : List α) : fit code room s = min s.length (room / w) := by
  induction s generalizing room with
  | nil => simp [fit]
  | cons a s ih =>
    simp only [fit, h, ih, List.length_cons]
    split_ifs with hr
    · have hd : room / w = (room - w) / w + 1 := by
        conv_lhs => rw [← Nat.sub_add_cancel hr]
        exact Nat.add_div_right _ hw
      rw [hd, Nat.succ_min_succ]
    · rw [Nat.div_eq_of_lt (Nat.lt_of_not_le hr)]
      simp

end Lib
