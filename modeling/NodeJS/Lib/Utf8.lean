import Mathlib.Data.List.Basic
import Mathlib.Tactic.Common

/-! Byte strings as sequences of UTF-8 characters. A character is a lead byte with as many
continuation bytes as it announces; overlong forms and surrogates are not excluded, so all
valid UTF-8 is covered and some more. -/
namespace Lib.Utf8

/-- The bytes a lead byte announces, itself included. -/
def announced (b : UInt8) : Option ℕ :=
  if b < 0x80 then some 1
  else if b < 0xC0 then none
  else if b < 0xE0 then some 2
  else if b < 0xF0 then some 3
  else if b < 0xF8 then some 4
  else none

def IsCont (b : UInt8) : Prop := 0x80 ≤ b ∧ b < 0xC0

instance (b : UInt8) : Decidable (IsCont b) := inferInstanceAs (Decidable (_ ∧ _))

def IsChar : List UInt8 → Prop
  | [] => False
  | b :: tail => announced b = some (tail.length + 1) ∧ ∀ x ∈ tail, IsCont x

instance : DecidablePred IsChar
  | [] => isFalse id
  | _ :: _ => inferInstanceAs (Decidable (_ ∧ _))

def Whole (s : List UInt8) : Prop :=
  ∃ cs : List (List UInt8), s = cs.flatten ∧ ∀ c ∈ cs, IsChar c

/-- The beginning of a character that is not all there. -/
def Partial (p : List UInt8) : Prop := ∃ q, q ≠ [] ∧ IsChar (p ++ q)

theorem announced_le {b : UInt8} {n : ℕ} (h : announced b = some n) : 1 ≤ n ∧ n ≤ 4 := by
  unfold announced at h
  split_ifs at h <;> simp at h <;> omega

theorem announced_of_isCont {b : UInt8} (h : IsCont b) : announced b = none := by
  obtain ⟨h80, hC0⟩ := h
  have hn : ¬ b < 0x80 := UInt8.not_lt.mpr h80
  simp [announced, hn, hC0]

theorem IsChar.ne_nil {c : List UInt8} (h : IsChar c) : c ≠ [] := by
  rintro rfl
  exact h

theorem Whole.nil : Whole [] := ⟨[], rfl, by simp⟩

theorem IsChar.whole {c : List UInt8} (h : IsChar c) : Whole c := by
  refine ⟨[c], by simp, ?_⟩
  intro d hd
  rw [List.mem_singleton.mp hd]
  exact h

theorem Whole.append {s t : List UInt8} (hs : Whole s) (ht : Whole t) : Whole (s ++ t) := by
  obtain ⟨cs, rfl, hcs⟩ := hs
  obtain ⟨ds, rfl, hds⟩ := ht
  refine ⟨cs ++ ds, by simp, ?_⟩
  intro c hc
  rcases List.mem_append.mp hc with h | h
  · exact hcs c h
  · exact hds c h

theorem Whole.flatten {ss : List (List UInt8)} (h : ∀ s ∈ ss, Whole s) : Whole ss.flatten := by
  induction ss with
  | nil => exact Whole.nil
  | cons s ss ih =>
    rw [List.flatten_cons]
    exact (h s (by simp)).append (ih fun t ht => h t (by simp [ht]))

/-- The first byte decides how long a character is. -/
theorem IsChar.length_eq {b : UInt8} {s t : List UInt8} (hs : IsChar (b :: s))
    (ht : IsChar (b :: t)) : s.length = t.length := by
  have h := hs.1.symm.trans ht.1
  simpa using h

/-- Two texts that start with a character and agree as far as both go start with the same
character. -/
theorem IsChar.unique {c d s t : List UInt8} (hc : IsChar c) (hd : IsChar d)
    (h : c ++ s = d ++ t) : c = d ∧ s = t := by
  cases c with
  | nil => exact hc.elim
  | cons b c =>
    cases d with
    | nil => exact hd.elim
    | cons b' d =>
      simp only [List.cons_append, List.cons.injEq] at h
      obtain ⟨rfl, h⟩ := h
      obtain ⟨rfl, rfl⟩ := List.append_inj h (IsChar.length_eq hc hd)
      exact ⟨rfl, rfl⟩

/-- A text of whole characters cannot start with whole characters and go on with a part of
one only: whatever follows, the whole characters of the two texts are the same. -/
theorem Whole.le_of_prefix {w p v u : List UInt8} (hw : Whole w) (hp : Partial p)
    (hv : Whole v) (h : v ++ u = w ++ p) : ∃ x, v ++ x = w := by
  obtain ⟨cs, rfl, hcs⟩ := hw
  obtain ⟨ds, rfl, hds⟩ := hv
  induction cs generalizing ds with
  | nil =>
    cases ds with
    | nil => exact ⟨[], rfl⟩
    | cons d ds =>
      exfalso
      obtain ⟨q, hq, hc⟩ := hp
      have hd := hds d (by simp)
      have hx : d ++ (ds.flatten ++ u ++ q) = (p ++ q) ++ [] := by
        simp only [List.flatten_cons, List.flatten_nil, List.nil_append, List.append_assoc] at h
        simp [← h]
      have hl := congrArg List.length (IsChar.unique hd hc hx).2
      have hpos := List.length_pos_of_ne_nil hq
      simp only [List.length_append, List.length_nil] at hl
      omega
  | cons c cs ih =>
    cases ds with
    | nil => exact ⟨(c :: cs).flatten, rfl⟩
    | cons d ds =>
      simp only [List.flatten_cons, List.append_assoc] at h
      obtain ⟨rfl, hrest⟩ := IsChar.unique (hds d (by simp)) (hcs c (by simp)) h
      obtain ⟨x, hx⟩ := ih (fun e he => hcs e (by simp [he])) ds
        (fun e he => hds e (by simp [he])) hrest
      exact ⟨x, by simp [← hx]⟩

/-- Every beginning of a text of whole characters is whole characters and a part of one. -/
theorem Whole.split {s t : List UInt8} (h : Whole (s ++ t)) :
    ∃ w p, s = w ++ p ∧ Whole w ∧ Partial p := by
  obtain ⟨cs, he, hcs⟩ := h
  induction cs generalizing s with
  | nil =>
    obtain ⟨rfl, -⟩ := List.append_eq_nil_iff.mp he
    exact ⟨[], [], rfl, Whole.nil, [0], by simp, by decide, by simp⟩
  | cons c cs ih =>
    have hc := hcs c (by simp)
    rw [List.flatten_cons] at he
    rcases List.append_eq_append_iff.mp he with ⟨q, hq, -⟩ | ⟨s', rfl, ht⟩
    · by_cases hnil : q = []
      · refine ⟨s, [], by simp, ?_, [0], by simp, by decide, by simp⟩
        rw [hnil, List.append_nil] at hq
        exact hq ▸ hc.whole
      · exact ⟨[], s, rfl, Whole.nil, q, hnil, hq ▸ hc⟩
    · obtain ⟨w, p, rfl, hw, hp⟩ := ih ht.symm (fun d hd => hcs d (by simp [hd]))
      exact ⟨c ++ w, p, by simp, hc.whole.append hw, hp⟩

/-- After whole characters of a text of whole characters come whole characters. -/
theorem Whole.of_append {s t : List UInt8} (hs : Whole s) (h : Whole (s ++ t)) : Whole t := by
  obtain ⟨cs, rfl, hcs⟩ := hs
  induction cs with
  | nil => simpa using h
  | cons c cs ih =>
    apply ih (fun d hd => hcs d (by simp [hd]))
    obtain ⟨ds, he, hds⟩ := h
    have hc := hcs c (by simp)
    cases ds with
    | nil =>
      have hl := congrArg List.length he
      have hpos := List.length_pos_of_ne_nil hc.ne_nil
      simp only [List.flatten_cons, List.length_append, List.flatten_nil, List.length_nil] at hl
      omega
    | cons d ds =>
      simp only [List.flatten_cons, List.append_assoc] at he
      obtain ⟨-, hrest⟩ := IsChar.unique hc (hds d (by simp)) he
      exact ⟨ds, hrest, fun e he' => hds e (by simp [he'])⟩

/-- Whole characters are followed by a part of one that is more whole characters only if
there is no such part. -/
theorem Whole.eq_nil_of_part {w p : List UInt8} (hw : Whole w) (hp : Partial p)
    (h : Whole (w ++ p)) : p = [] := by
  obtain ⟨x, hx⟩ := Whole.le_of_prefix (u := []) hw hp h (List.append_nil _)
  have hl := congrArg List.length hx
  simp only [List.length_append] at hl
  exact List.length_eq_zero_iff.mp (by omega)

/-- The last of some whole characters. -/
theorem Whole.snoc {s : List UInt8} (h : Whole s) (hne : s ≠ []) :
    ∃ w c, s = w ++ c ∧ Whole w ∧ IsChar c := by
  obtain ⟨cs, rfl, hcs⟩ := h
  have hcs0 : cs ≠ [] := by
    rintro rfl
    exact hne rfl
  refine ⟨cs.dropLast.flatten, cs.getLast hcs0, ?_, ⟨cs.dropLast, rfl, ?_⟩, ?_⟩
  · conv_lhs => rw [← List.dropLast_append_getLast hcs0]
    simp
  · exact fun c hc => hcs c (List.dropLast_subset _ hc)
  · exact hcs _ (List.getLast_mem hcs0)

/-- A character does not end in another one. -/
theorem IsChar.eq_nil_of_append {x c : List UInt8} (hc : IsChar c) (h : IsChar (x ++ c)) :
    x = [] := by
  cases x with
  | nil => rfl
  | cons a x =>
    exfalso
    cases c with
    | nil => exact hc
    | cons b tail =>
      have hb := announced_of_isCont (h.2 b (by simp))
      rw [hc.1] at hb
      exact absurd hb (by simp)

/-- A text ends in one character only. -/
theorem IsChar.unique_last {w c v d : List UInt8} (hc : IsChar c) (hd : IsChar d)
    (h : w ++ c = v ++ d) : c = d := by
  rcases List.append_eq_append_iff.mp h with ⟨x, -, rfl⟩ | ⟨x, -, rfl⟩
  · rw [IsChar.eq_nil_of_append hd hc, List.nil_append]
  · rw [IsChar.eq_nil_of_append hc hd, List.nil_append]

/-- A lead byte among whole characters starts one of them. -/
theorem Whole.at_lead {s t : List UInt8} {b : UInt8} {n : ℕ} (h : Whole (s ++ b :: t))
    (hb : announced b = some n) : Whole s := by
  obtain ⟨cs, he, hcs⟩ := h
  induction cs generalizing s with
  | nil => simp at he
  | cons c cs ih =>
    have hc := hcs c (by simp)
    have hrest : ∀ d ∈ cs, IsChar d := fun d hd => hcs d (by simp [hd])
    rw [List.flatten_cons] at he
    rcases List.append_eq_append_iff.mp he with ⟨q, rfl, ht⟩ | ⟨s', rfl, ht⟩
    · cases s with
      | nil => exact Whole.nil
      | cons a s =>
        cases q with
        | nil =>
          rw [List.append_nil] at hc
          exact hc.whole
        | cons b' q =>
          obtain ⟨rfl, -⟩ := List.cons.inj ht
          have hcont := hc.2 b (by simp)
          rw [announced_of_isCont hcont] at hb
          exact absurd hb (by simp)
    · exact hc.whole.append (ih ht.symm hrest)

/-- Whole characters start with all the bytes that the first one announces. -/
theorem Whole.take_announced {b : UInt8} {s : List UInt8} {n : ℕ} (h : Whole (b :: s))
    (hb : announced b = some n) : n ≤ s.length + 1 ∧ IsChar ((b :: s).take n) := by
  obtain ⟨cs, he, hcs⟩ := h
  cases cs with
  | nil => simp at he
  | cons c cs =>
    have hc := hcs c (by simp)
    cases c with
    | nil => exact hc.elim
    | cons b' tail =>
      simp only [List.flatten_cons, List.cons_append, List.cons.injEq] at he
      obtain ⟨rfl, rfl⟩ := he
      have hn : tail.length + 1 = n := by simpa [hb] using hc.1.symm
      rw [← List.cons_append, List.take_left' (by simpa using hn)]
      refine ⟨?_, hc⟩
      rw [List.length_append]
      omega

/-- What stands before the announced end of the first character is a part of it. -/
theorem Whole.partial_of_announced {b : UInt8} {p t : List UInt8} {n : ℕ}
    (h : Whole (b :: p ++ t)) (hb : announced b = some n) (hp : p.length + 1 < n) :
    Partial (b :: p) := by
  obtain ⟨hle, hc⟩ := Whole.take_announced (s := p ++ t) h hb
  refine ⟨t.take (n - (p.length + 1)), ?_, ?_⟩
  · intro hnil
    have hl := congrArg List.length hnil
    simp only [List.length_take, List.length_nil, List.length_append] at hl hle
    omega
  · rw [← List.cons_append, List.take_append, List.take_of_length_le (by simp; omega)] at hc
    exact hc

/-- A part of a character starts with a lead byte that announces more than is there. -/
theorem Partial.announced {b : UInt8} {p : List UInt8} (h : Partial (b :: p)) :
    ∃ n, announced b = some n ∧ p.length + 1 < n := by
  obtain ⟨q, hq, hc⟩ := h
  rw [List.cons_append] at hc
  refine ⟨_, hc.1, ?_⟩
  have hpos := List.length_pos_of_ne_nil hq
  simp only [List.length_append]
  omega

end Lib.Utf8
