import NodeJS.Buffer.Base64
import Mathlib.Data.Nat.Digits.Defs

/-! The keys under which `realpathSync` and `realpath` remember links. -/
namespace NodeJS.Fs

/-- `st_dev` and `st_ino`. -/
structure Stat where
  dev : UInt64
  ino : UInt64

/-- `Integer::New`, whose parameter is an `int32_t`. -/
def integerNew (x : UInt64) : ℤ := Base64.int32Value x.toNat

/-! ### `toString(32)` -/

/-- One of `0` to `9` and `a` to `v`. -/
def digitUnit (d : ℕ) : UInt16 := UInt16.ofNat (if d < 10 then 0x30 + d else 0x57 + d)

def digitsText (n : ℕ) : JSString :=
  ((if n = 0 then [0] else Nat.digits 32 n).reverse).map digitUnit

def minus : UInt16 := 0x2D

def toString32 (n : ℤ) : JSString := (if n < 0 then [minus] else []) ++ digitsText n.natAbs

def colon : UInt16 := 0x3A

/-- `stat.dev.toString(32) + ':' + stat.ino.toString(32)` of what `BuildStatsObject` makes. -/
def linkId (s : Stat) : JSString :=
  toString32 (integerNew s.dev) ++ colon :: toString32 (integerNew s.ino)

/-- Two numbers that `BuildStatsObject` does not tell apart. -/
def SameLow (s t : Stat) : Prop :=
  s.dev.toUInt32 = t.dev.toUInt32 ∧ s.ino.toUInt32 = t.ino.toUInt32

instance (s t : Stat) : Decidable (SameLow s t) := inferInstanceAs (Decidable (_ ∧ _))

theorem integerNew_inj_iff (x y : UInt64) :
    integerNew x = integerNew y ↔ x.toUInt32 = y.toUInt32 := by
  rw [← UInt32.toNat_inj, UInt64.toNat_toUInt32, UInt64.toNat_toUInt32]
  unfold integerNew Base64.int32Value
  omega

def digitOf (c : UInt16) : ℕ := if c.toNat < 0x57 then c.toNat - 0x30 else c.toNat - 0x57

theorem digitOf_digitUnit : ∀ d < 32, digitOf (digitUnit d) = d := by decide

theorem digitUnit_ne : ∀ d < 32, digitUnit d ≠ minus ∧ digitUnit d ≠ colon := by decide

theorem digits_lt {n d : ℕ} (h : d ∈ (if n = 0 then [0] else Nat.digits 32 n).reverse) :
    d < 32 := by
  rw [List.mem_reverse] at h
  split_ifs at h
  · rw [List.mem_singleton.mp h]
    decide
  · exact Nat.digits_lt_base (by decide) h

theorem digitsText_injective {n m : ℕ} (h : digitsText n = digitsText m) : n = m := by
  have hback : ∀ k, (digitsText k).map digitOf =
      (if k = 0 then [0] else Nat.digits 32 k).reverse := by
    intro k
    have hdigit : ∀ d ∈ (if k = 0 then [0] else Nat.digits 32 k).reverse,
        (digitOf ∘ digitUnit) d = id d := fun d hd => digitOf_digitUnit d (digits_lt hd)
    unfold digitsText
    rw [List.map_map, List.map_congr_left hdigit, List.map_id]
  have hvalue : ∀ k, Nat.ofDigits 32 (if k = 0 then [0] else Nat.digits 32 k) = k := by
    intro k
    split_ifs with hk
    · rw [hk]
      rfl
    · exact Nat.ofDigits_digits 32 k
  have hdigits := congrArg (List.map digitOf) h
  rw [hback, hback, List.reverse_inj] at hdigits
  rw [← hvalue n, hdigits, hvalue]

theorem not_mem_digitsText (n : ℕ) : minus ∉ digitsText n ∧ colon ∉ digitsText n := by
  unfold digitsText
  constructor
  · intro hmem
    obtain ⟨d, hd, heq⟩ := List.mem_map.mp hmem
    exact (digitUnit_ne d (digits_lt hd)).1 heq
  · intro hmem
    obtain ⟨d, hd, heq⟩ := List.mem_map.mp hmem
    exact (digitUnit_ne d (digits_lt hd)).2 heq

theorem toString32_injective {n m : ℤ} (h : toString32 n = toString32 m) : n = m := by
  unfold toString32 at h
  split_ifs at h with hn hm hm
  · have habs := digitsText_injective (List.append_cancel_left h)
    omega
  · have hmem := (not_mem_digitsText m.natAbs).1
    rw [List.nil_append] at h
    rw [← h] at hmem
    exact absurd List.mem_cons_self hmem
  · have hmem := (not_mem_digitsText n.natAbs).1
    rw [List.nil_append] at h
    rw [h] at hmem
    exact absurd List.mem_cons_self hmem
  · have habs := digitsText_injective (List.append_cancel_left h)
    omega

theorem colon_not_mem (n : ℤ) : colon ∉ toString32 n := by
  unfold toString32
  rw [List.mem_append, not_or]
  refine ⟨?_, (not_mem_digitsText _).2⟩
  split_ifs
  · decide
  · exact List.not_mem_nil

/-- The key stands for the lower halves of both numbers. -/
theorem linkId_eq_iff (s t : Stat) : linkId s = linkId t ↔ SameLow s t := by
  unfold linkId SameLow
  rw [← integerNew_inj_iff, ← integerNew_inj_iff]
  constructor
  · intro h
    obtain ⟨hdev, -, hino⟩ :=
      (List.append_cons_inj_of_notMem (colon_not_mem _) (colon_not_mem _)).mp h
    exact ⟨toString32_injective hdev, toString32_injective hino⟩
  · rintro ⟨hdev, hino⟩
    rw [hdev, hino]

attribute [irreducible] linkId

end NodeJS.Fs
